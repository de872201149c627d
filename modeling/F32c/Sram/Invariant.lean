import F32c.Sram.Controller

/-!
# Accepted writes and finished reads

A write is acknowledged when it is accepted, before the chip has seen it.  The
invariant of this module says which half words are still on their way, so that the
contents of the chip together with them are the words of all accepted writes.  A
read is finished only when nothing is on its way.
-/

namespace F32c
namespace Sram

variable {n : Nat} {c : Config n}

section Words

/-- A half word written to the chip. -/
def pend (mem : Mem) (a : BitVec 19) (new : BitVec 16) (ub lb : Bool) : Mem :=
  Function.update mem a (mergeHalf (mem a) new ub lb)

/-- The upper half of a write. -/
def pendHi (mem : Mem) (addr : BitVec 18) (out : BitVec 32) (sel : BitVec 2) : Mem :=
  pend mem (addr ++ 1#1) (out.extractLsb 31 16) (sel.getLsbD 1) (sel.getLsbD 0)

theorem append_inj {v w : Nat} {a b : BitVec v} {x y : BitVec w} :
    a ++ x = b ++ y ↔ a = b ∧ x = y := by
  constructor
  · intro h
    constructor
    · apply BitVec.eq_of_getLsbD_eq
      intro i hi
      have hbit := congrArg (fun z => z.getLsbD (w + i)) h
      simpa [BitVec.getLsbD_append] using hbit
    · apply BitVec.eq_of_getLsbD_eq
      intro i hi
      have hbit := congrArg (fun z => z.getLsbD i) h
      simpa [BitVec.getLsbD_append, hi] using hbit
  · rintro ⟨rfl, rfl⟩
    rfl

theorem extract_append_hi {v w : Nat} (a : BitVec v) (x : BitVec w) :
    (a ++ x).extractLsb' w v = a := by
  apply BitVec.eq_of_getLsbD_eq
  intro i hi
  simp [BitVec.getLsbD_append, hi]

theorem extract_append_lo {v w : Nat} (a : BitVec v) (x : BitVec w) :
    (a ++ x).extractLsb' 0 w = x := by
  apply BitVec.eq_of_getLsbD_eq
  intro i hi
  simp [BitVec.getLsbD_append, hi]

/-- Two half words are the same only if their words are. -/
theorem append_bit_inj {a b : BitVec 18} {x y : BitVec 1} :
    (a ++ x : BitVec 19) = (b ++ y : BitVec 19) ↔ a = b ∧ x = y :=
  append_inj

/-- A half word is made of its bytes. -/
theorem bytes_append (x : BitVec 16) : x.extractLsb 15 8 ++ x.extractLsb 7 0 = x := by
  apply BitVec.eq_of_getLsbD_eq
  intro i hi
  rw [BitVec.getLsbD_append]
  grind

/-- A word is made of its half words. -/
theorem halves_append (x : BitVec 32) : x.extractLsb 31 16 ++ x.extractLsb 15 0 = x := by
  apply BitVec.eq_of_getLsbD_eq
  intro i hi
  rw [BitVec.getLsbD_append]
  grind

@[simp] theorem upper_append (x y : BitVec 16) : (x ++ y : BitVec 32).extractLsb 31 16 = x :=
  extract_append_hi x y

@[simp] theorem lower_append (x y : BitVec 16) : (x ++ y : BitVec 32).extractLsb 15 0 = y :=
  extract_append_lo x y

@[simp] theorem mergeHalf_false (old new : BitVec 16) : mergeHalf old new false false = old :=
  bytes_append old

@[simp] theorem mergeHalf_true (old new : BitVec 16) : mergeHalf old new true true = new :=
  bytes_append new

@[simp] theorem pend_false (mem : Mem) (a : BitVec 19) (new : BitVec 16) :
    pend mem a new false false = mem := by
  simp [pend]

/-- A half word of the chip is one of the halves of its word. -/
theorem words_pend_hi (mem : Mem) (addr : BitVec 18) (new : BitVec 16) (ub lb : Bool) :
    words (pend mem (addr ++ 1#1) new ub lb) =
      Function.update (words mem) addr
        (mergeHalf (mem (addr ++ 1#1)) new ub lb ++ mem (addr ++ 0#1)) := by
  funext a
  by_cases ha : a = addr
  · subst ha
    simp [words, pend, append_bit_inj]
  · simp [words, pend, append_bit_inj, ha]

theorem words_pend_lo (mem : Mem) (addr : BitVec 18) (new : BitVec 16) (ub lb : Bool) :
    words (pend mem (addr ++ 0#1) new ub lb) =
      Function.update (words mem) addr
        (mem (addr ++ 1#1) ++ mergeHalf (mem (addr ++ 0#1)) new ub lb) := by
  funext a
  by_cases ha : a = addr
  · subst ha
    simp [words, pend, append_bit_inj]
  · simp [words, pend, append_bit_inj, ha]

/-- The two halves of a write, one after the other. -/
theorem words_write (mem : Mem) (q : Req) :
    words (pendHi (pend mem (q.word ++ 0#1) (q.dataIn.extractLsb 15 0) (q.byteSel.getLsbD 1)
      (q.byteSel.getLsbD 0)) q.word q.dataIn (q.byteSel.extractLsb 3 2)) =
      writeWord (words mem) q := by
  have hhi : (words mem q.word).extractLsb 31 16 = mem (q.word ++ 1#1) := upper_append _ _
  have hlo : (words mem q.word).extractLsb 15 0 = mem (q.word ++ 0#1) := lower_append _ _
  have hread1 : pend mem (q.word ++ 0#1) (q.dataIn.extractLsb 15 0) (q.byteSel.getLsbD 1)
      (q.byteSel.getLsbD 0) (q.word ++ 1#1) = mem (q.word ++ 1#1) := by
    simp [pend, append_bit_inj]
  have hread0 : pend mem (q.word ++ 0#1) (q.dataIn.extractLsb 15 0) (q.byteSel.getLsbD 1)
      (q.byteSel.getLsbD 0) (q.word ++ 0#1) =
        mergeHalf (mem (q.word ++ 0#1)) (q.dataIn.extractLsb 15 0) (q.byteSel.getLsbD 1)
          (q.byteSel.getLsbD 0) := by
    simp [pend]
  rw [pendHi, words_pend_hi, words_pend_lo, Function.update_idem, hread1, hread0, writeWord,
    mergeWord, hhi, hlo]
  simp

end Words

section Acks

variable {s : State n} {w : Words} {bus : Fin n → Req}

/-- The port whose read is finished and the port whose write is accepted, in a clock. -/
structure Acks (s : State n) (w : Words) (bus : Fin n → Req) (fin acc : Option (Fin n)) : Prop where
  ack : ∀ p, s.ackBitmap p = true ↔ fin = some p ∨ acc = some p
  finished : ∀ p, fin = some p →
    (bus p).addrStrobe = true ∧ (bus p).write = false ∧ s.busOut = w (bus p).word
  written : ∀ p, acc = some p →
    (bus p).addrStrobe = true ∧ (bus p).write = true ∧
      s.snoopCycle = true ∧ s.snoopAddr = (bus p).word
  snoop : acc = none → s.snoopCycle = false

theorem Acks.quiet (hack : s.ackBitmap = fun _ => false) (hsnoop : s.snoopCycle = false) :
    Acks s w bus none none :=
  ⟨by simp [hack], nofun, nofun, fun _ => hsnoop⟩

/-- A fold in which only one element does anything. -/
theorem foldl_eq_of_unique {α β : Type} {f : β → α → β} {q : α} {l : List α} (hl : l.Nodup)
    (hq : q ∈ l) (hother : ∀ b, ∀ p ∈ l, p ≠ q → f b p = b) (b : β) : l.foldl f b = f b q := by
  induction l generalizing b with
  | nil =>
      simp at hq
  | cons p l ih =>
      rw [List.nodup_cons] at hl
      by_cases hp : p = q
      · subst hp
        have hrest : ∀ b, l.foldl f b = b := by
          intro b
          refine List.foldlRecOn (motive := fun x => x = b) l f rfl ?_
          intro x hx a ha
          rw [hother x a (List.mem_cons_of_mem _ ha) (by rintro rfl; exact hl.1 ha), hx]
        rw [List.foldl_cons, hrest]
      · rw [List.foldl_cons, hother b p List.mem_cons_self hp]
        exact ih hl.2 (by simpa [Ne.symm hp] using hq)
          (fun b x hx => hother b x (List.mem_cons_of_mem _ hx)) b

/-- At most one write is accepted in a clock. -/
theorem Acks.acceptWrites_some {fin : Option (Fin n)} {q : Fin n} (h : Acks s w bus fin (some q)) :
    acceptWrites w s bus = writeWord w (bus q) := by
  have hack : s.ackBitmap q = true := (h.ack q).2 (.inr rfl)
  obtain ⟨-, hwrite, -, -⟩ := h.written q rfl
  rw [acceptWrites, foldl_eq_of_unique (List.nodup_finRange n) (List.mem_finRange q)]
  · simp [hack, hwrite]
  · intro w' p _ hp
    cases hp' : s.ackBitmap p with
    | false => simp
    | true =>
        rcases (h.ack p).1 hp' with hf | ha
        · simp [(h.finished p hf).2.1]
        · exact absurd (Option.some.inj ha).symm hp

theorem Acks.acceptWrites_none {fin : Option (Fin n)} (h : Acks s w bus fin none) :
    acceptWrites w s bus = w := by
  refine List.foldlRecOn (motive := fun x => x = w) _ _ rfl ?_
  intro x hx p _
  cases hp : s.ackBitmap p with
  | false => simpa using hx
  | true =>
      rcases (h.ack p).1 hp with hf | ha
      · simpa [(h.finished p hf).2.1] using hx
      · simp at ha

end Acks

section Mode

/-- What the controller is doing, and what is still on its way to the chip. -/
inductive Mode (c : Config n) (s : State n) (mem : Mem) (w : Words) (bus : Fin n → Req) : Prop
  | idle (hphase : s.phase = 0) (hwel : s.wel = true) (hmem : words mem = w)
  | read (hphase : 1 ≤ s.phase ∧ s.phase ≤ c.waitCycles * 2 - 1)
      (hcycle : s.writeCycle = false) (hwel : s.wel = true) (hlanes : s.ubl = false ∧ s.lbl = false)
      (hd : s.d = none) (hmem : words mem = w)
      (hreq : (bus s.curPort).addrStrobe = true ∧ (bus s.curPort).write = false)
      (ha : s.a = (bus s.curPort).word ++ BitVec.ofBool (decide (c.waitCycles ≤ s.phase)))
      (hlow : c.waitCycles ≤ s.phase →
        s.busOut.extractLsb 15 0 = mem ((bus s.curPort).word ++ 0#1))
      (hack : s.ackBitmap s.curPort = false)
  | writeLo (addr : BitVec 18) (hphase : 1 ≤ s.phase ∧ s.phase ≤ c.waitCycles - 1)
      (hcycle : s.writeCycle = true) (hwel : s.wel = false) (ha : s.a = addr ++ 0#1)
      (hd : 2 ≤ s.phase → s.d = some (s.outWord.extractLsb 15 0))
      (hmem : words (pendHi (pend mem (addr ++ 0#1) (s.outWord.extractLsb 15 0) (!s.ubl) (!s.lbl))
        addr s.outWord s.byteSelHi) = w)
  | writeMid (addr : BitVec 18) (hphase : s.phase = c.waitCycles) (hcycle : s.writeCycle = true)
      (hwel : s.wel = true) (ha : s.a = addr ++ 0#1)
      (hmem : words (pendHi mem addr s.outWord s.byteSelHi) = w)
  | writeHi (addr : BitVec 18)
      (hphase : c.waitCycles ≤ s.phase ∧ s.phase ≤ c.waitCycles * 2 - 1)
      (hcycle : s.writeCycle = true) (hwel : s.wel = false) (ha : s.a = addr ++ 1#1)
      (hlanes : s.ubl = !s.byteSelHi.getLsbD 1 ∧ s.lbl = !s.byteSelHi.getLsbD 0)
      (hd : c.waitCycles + 2 ≤ s.phase → s.d = some (s.outWord.extractLsb 31 16))
      (hmem : words (pendHi mem addr s.outWord s.byteSelHi) = w)

/-- The invariant of a run; `w` does not yet hold the write that is accepted in this clock. -/
structure Inv (c : Config n) (s : State n) (mem : Mem) (w : Words) (bus : Fin n → Req) : Prop where
  acks : ∃ fin acc, Acks s w bus fin acc
  mode : Mode c s mem (acceptWrites w s bus) bus
  quiet : s.phase = c.waitCycles * 2 - 1 → ∀ p, s.ackBitmap p = false

end Mode

section Start

variable {s r : State n} {mem : Mem} {w : Words} {bus bus' : Fin n → Req}

theorem startTransaction_read (hwrite : (bus s.nextPort).write = false) :
    startTransaction c s bus r =
      { r with
        curPort := s.nextPort
        phase := 1
        byteSelHi := (bus s.nextPort).byteSel.extractLsb 3 2
        a := (bus s.nextPort).word ++ 0#1 } := by
  simp [startTransaction, Req.upperOnly, hwrite]

theorem startTransaction_write (hwrite : (bus s.nextPort).write = true) :
    startTransaction c s bus r =
      { r with
        curPort := s.nextPort
        phase := if (bus s.nextPort).upperOnly then c.waitCycles else 1
        byteSelHi := (bus s.nextPort).byteSel.extractLsb 3 2
        a := (bus s.nextPort).word ++ BitVec.ofBool (bus s.nextPort).upperOnly
        writeCycle := true
        wel := false
        outWord := (bus s.nextPort).dataIn
        ubl := !(bus s.nextPort).byteSel.getLsbD (if (bus s.nextPort).upperOnly then 3 else 1)
        lbl := !(bus s.nextPort).byteSel.getLsbD (if (bus s.nextPort).upperOnly then 2 else 0)
        ackBitmap := Function.update r.ackBitmap s.nextPort true
        snoopAddr := (bus s.nextPort).word
        snoopCycle := true } := by
  simp [startTransaction, hwrite, Config.writeUpperHalf]

/-- The bits of `byte_sel` that select nothing in the lower half. -/
theorem upperOnly_byteSel {q : Req} (h : q.upperOnly = true) :
    q.byteSel.getLsbD 1 = false ∧ q.byteSel.getLsbD 0 = false := by
  simp only [Req.upperOnly, Bool.and_eq_true, beq_iff_eq] at h
  constructor
  · simpa using congrArg (fun x => x.getLsbD 1) h.2
  · simpa using congrArg (fun x => x.getLsbD 0) h.2

/-- A read begins. -/
theorem mode_startRead (hwait : 3 ≤ c.waitCycles) (hcycle : r.writeCycle = false)
    (hwel : r.wel = true) (hlanes : r.ubl = false ∧ r.lbl = false) (hd : r.d = none)
    (hmem : words mem = w) (hstrobe : (bus s.nextPort).addrStrobe = true)
    (hwrite : (bus s.nextPort).write = false) (hkeep : bus' s.nextPort = bus s.nextPort)
    (hack : r.ackBitmap s.nextPort = false) :
    Mode c (startTransaction c s bus r) mem w bus' := by
  rw [startTransaction_read hwrite]
  refine .read ?_ hcycle hwel hlanes hd hmem ?_ ?_ ?_ hack
  · dsimp only
    omega
  · simp [hkeep, hstrobe, hwrite]
  · have hlt : ¬c.waitCycles ≤ 1 := by omega
    simp [hkeep, hlt]
  · intro hle
    dsimp only at hle
    omega

/-- A write begins, in the lower or in the upper half. -/
theorem mode_startWrite (hwait : 3 ≤ c.waitCycles) (hmem : words mem = w)
    (hwrite : (bus s.nextPort).write = true) :
    Mode c (startTransaction c s bus r) mem (writeWord w (bus s.nextPort)) bus' := by
  rw [startTransaction_write hwrite]
  have hwords := words_write mem (bus s.nextPort)
  rw [hmem] at hwords
  cases hupper : (bus s.nextPort).upperOnly with
  | true =>
      obtain ⟨h1, h0⟩ := upperOnly_byteSel hupper
      rw [h1, h0, pend_false] at hwords
      refine .writeHi (bus s.nextPort).word ?_ rfl rfl ?_ ?_ ?_ hwords
      · simp only [if_true]
        omega
      · simp
      · simp
      · simp only [if_true]
        omega
  | false =>
      refine .writeLo (bus s.nextPort).word ?_ rfl rfl ?_ ?_ ?_
      · simp only [Bool.false_eq_true, if_false]
        omega
      · simp
      · simp only [Bool.false_eq_true, if_false]
        omega
      · simpa using hwords

/-- The invariant of a clock that starts a transaction, and may finish a read as well. -/
theorem inv_start (fin : Option (Fin n)) (hwait : 3 ≤ c.waitCycles) (hcycle : r.writeCycle = false)
    (hwel : r.wel = true) (hlanes : r.ubl = false ∧ r.lbl = false) (hd : r.d = none)
    (hsnoop : r.snoopCycle = false) (hmem : words mem = w)
    (hfin : ∀ p, r.ackBitmap p = true ↔ fin = some p)
    (hfinished : ∀ p, fin = some p →
      (bus' p).addrStrobe = true ∧ (bus' p).write = false ∧ r.busOut = w (bus' p).word)
    (hstrobe : (bus s.nextPort).addrStrobe = true) (hkeep : bus' s.nextPort = bus s.nextPort)
    (hack : r.ackBitmap s.nextPort = false) :
    Inv c (startTransaction c s bus r) mem w bus' := by
  cases hwrite : (bus s.nextPort).write with
  | false =>
      have hacks : Acks (startTransaction c s bus r) w bus' fin none := by
        rw [startTransaction_read hwrite]
        exact ⟨by simpa using hfin, hfinished, nofun, fun _ => hsnoop⟩
      refine ⟨⟨fin, none, hacks⟩, ?_, ?_⟩
      · rw [hacks.acceptWrites_none]
        exact mode_startRead hwait hcycle hwel hlanes hd hmem hstrobe hwrite hkeep hack
      · rw [startTransaction_read hwrite]
        dsimp only
        omega
  | true =>
      have hacks : Acks (startTransaction c s bus r) w bus' fin (some s.nextPort) := by
        rw [startTransaction_write hwrite]
        refine ⟨?_, hfinished, ?_, nofun⟩
        · intro p
          by_cases hp : p = s.nextPort
          · simp [hp]
          · simp [Function.update_of_ne hp, hfin, Ne.symm hp]
        · intro p hp
          obtain rfl := Option.some.inj hp
          simp [hkeep, hstrobe, hwrite]
      refine ⟨⟨fin, some s.nextPort, hacks⟩, ?_, ?_⟩
      · rw [hacks.acceptWrites_some, hkeep]
        exact mode_startWrite hwait hmem hwrite
      · rw [startTransaction_write hwrite]
        dsimp only
        split <;> omega

theorem inv_quiet (hack : s.ackBitmap = fun _ => false) (hsnoop : s.snoopCycle = false)
    (hmode : Mode c s mem w bus) : Inv c s mem w bus := by
  have hacks : Acks s w bus none none := Acks.quiet hack hsnoop
  exact ⟨⟨none, none, hacks⟩, hacks.acceptWrites_none.symm ▸ hmode, fun _ p => by rw [hack]⟩

theorem inv_finish (p : Fin n) (hack : ∀ q, s.ackBitmap q = true ↔ q = p)
    (hsnoop : s.snoopCycle = false)
    (hreq : (bus p).addrStrobe = true ∧ (bus p).write = false) (hword : s.busOut = w (bus p).word)
    (hmode : Mode c s mem w bus) (hphase : s.phase ≠ c.waitCycles * 2 - 1) :
    Inv c s mem w bus := by
  have hacks : Acks s w bus (some p) none := by
    refine ⟨fun q => by simp [hack, eq_comm], ?_, nofun, fun _ => hsnoop⟩
    intro q hq
    obtain rfl := Option.some.inj hq
    exact ⟨hreq.1, hreq.2, hword⟩
  exact ⟨⟨some p, none, hacks⟩, hacks.acceptWrites_none.symm ▸ hmode, fun h => absurd h hphase⟩

end Start

section Step

variable {s : State n} {mem : Mem} {w : Words} {bus bus' : Fin n → Req} {float : BitVec 16}

/-- The clock of the system, with the value on the data pins. -/
def next (c : Config n) (s : State n) (mem : Mem) (bus : Fin n → Req) (float : BitVec 16) :
    State n :=
  step c s bus (sramD s mem float)

/-- Each port holds its request for a clock, unless it is acknowledged. -/
def Keeps (s : State n) (bus bus' : Fin n → Req) : Prop :=
  ∀ p, (bus p).addrStrobe = true → s.ackBitmap p = false → bus' p = bus p

theorem chipNext_of_wel {s' : State n} (h : s.wel = true) : chipNext s s' mem float = mem := by
  simp [chipNext, h]

theorem inv_next_idle (hwait : 3 ≤ c.waitCycles) (hkeeps : Keeps s bus bus') (hphase : s.phase = 0)
    (hwel : s.wel = true) (hmem : words mem = w) :
    Inv c (next c s mem bus float) (chipNext s (next c s mem bus float) mem float) w bus' := by
  rw [chipNext_of_wel hwel]
  simp only [next, step, hphase, if_true, idleStep]
  split
  · exact inv_quiet rfl rfl (.idle hphase rfl hmem)
  · rename_i hstart
    simp only [Bool.not_eq_true, Bool.or_eq_false_iff, Bool.not_eq_false'] at hstart
    exact inv_start none hwait rfl rfl ⟨rfl, rfl⟩ rfl rfl hmem (by simp [defaults]) nofun
      hstart.2 (hkeeps _ hstart.2 hstart.1) rfl

/-- While a read is going on the data pins carry the addressed half word. -/
theorem sramD_of_read (hwel : s.wel = true) (hlanes : s.ubl = false ∧ s.lbl = false)
    (hd : s.d = none) : sramD s mem float = mem s.a := by
  simp [sramD, hd, hwel, hlanes.1, hlanes.2]

theorem bumpAddr_append (addr : BitVec 18) (x : BitVec 1) : bumpAddr (addr ++ x) = addr ++ 1#1 := by
  have h : (addr ++ x : BitVec 19).extractLsb 18 1 = addr := extract_append_hi addr x
  rw [bumpAddr, h]

theorem inv_next_read (hwait : 3 ≤ c.waitCycles) (hkeeps : Keeps s bus bus')
    (hphase : 1 ≤ s.phase ∧ s.phase ≤ c.waitCycles * 2 - 1)
    (hcycle : s.writeCycle = false) (hwel : s.wel = true) (hlanes : s.ubl = false ∧ s.lbl = false)
    (hd : s.d = none) (hmem : words mem = w)
    (hreq : (bus s.curPort).addrStrobe = true ∧ (bus s.curPort).write = false)
    (ha : s.a = (bus s.curPort).word ++ BitVec.ofBool (decide (c.waitCycles ≤ s.phase)))
    (hlow : c.waitCycles ≤ s.phase →
      s.busOut.extractLsb 15 0 = mem ((bus s.curPort).word ++ 0#1))
    (hack : s.ackBitmap s.curPort = false)
    (hquiet : s.phase = c.waitCycles * 2 - 1 → ∀ p, s.ackBitmap p = false) :
    Inv c (next c s mem bus float) (chipNext s (next c s mem bus float) mem float) w bus' := by
  have hkeep : bus' s.curPort = bus s.curPort := hkeeps _ hreq.1 hack
  have hpins : sramD s mem float = mem s.a := sramD_of_read hwel hlanes hd
  have hzero : s.phase ≠ 0 := by omega
  have hword : s.phase = c.waitCycles * 2 - 1 →
      (defaults c s bus (mem s.a)).busOut = w (bus s.curPort).word := by
    intro hend
    have hle : c.waitCycles ≤ s.phase := by omega
    have hne : s.phase ≠ c.waitCycles - 1 := by omega
    rw [← hmem, words, ← hlow hle]
    simp only [defaults, Config.readUpperHalf, if_neg hne, ha, decide_eq_true hle]
    rfl
  rw [chipNext_of_wel hwel]
  simp only [next, step, hzero, if_false, hcycle, Bool.false_eq_true, readStep,
    Config.readUpperHalf, Config.readTerminate, hpins]
  split_ifs with hupper hend hstart
  · -- the lower half is sampled
    refine inv_quiet rfl rfl (.read ?_ hcycle hwel hlanes hd hmem ?_ ?_ ?_ rfl)
    · dsimp only
      omega
    · simpa [defaults, hkeep] using hreq
    · have hle : c.waitCycles ≤ s.phase + 1 := by omega
      simp [defaults, hkeep, ha, bumpAddr_append, hle]
    · intro _
      have hlt : ¬c.waitCycles ≤ s.phase := by omega
      simp only [defaults, Config.readUpperHalf, hupper, if_true, lower_append, hkeep, ha]
      rw [← hupper, decide_eq_false hlt]
      rfl
  · -- the upper half is sampled, and another transaction begins
    refine inv_start (some s.curPort) hwait hcycle hwel hlanes hd rfl hmem ?_ ?_ hstart.2
      (hkeeps _ hstart.2 (hquiet hend _)) ?_
    · intro p
      by_cases hp : p = s.curPort
      · simp [hp]
      · simp [defaults, Function.update_of_ne hp, Ne.symm hp]
    · intro p hp
      obtain rfl := Option.some.inj hp
      rw [hkeep]
      exact ⟨hreq.1, hreq.2, hword hend⟩
    · simp [defaults, Function.update_of_ne (Ne.symm hstart.1)]
  · -- the upper half is sampled, and the controller becomes idle
    refine inv_finish s.curPort ?_ rfl (hkeep.symm ▸ hreq) ?_ (.idle rfl hwel hmem) ?_
    · intro p
      by_cases hp : p = s.curPort
      · simp [hp]
      · simp [defaults, hp]
    · rw [hkeep]
      exact hword hend
    · dsimp only
      omega
  · refine inv_quiet rfl rfl (.read ?_ hcycle hwel hlanes hd hmem ?_ ?_ ?_ rfl)
    · dsimp only
      omega
    · simpa [defaults, hkeep] using hreq
    · have hiff : c.waitCycles ≤ s.phase + 1 ↔ c.waitCycles ≤ s.phase := by omega
      simp [defaults, hkeep, ha, hiff]
    · intro hle
      dsimp only at hle
      simpa [defaults, hkeep, Config.readUpperHalf, hupper] using hlow (by omega)

/-- The chip takes a half word when `sram_wel` returns to one. -/
theorem chipNext_terminate {s' : State n} {d : BitVec 16} (hwel : s.wel = false)
    (hwel' : s'.wel = true) (hd : s.d = some d) :
    chipNext s s' mem float = pend mem s.a d (!s.ubl) (!s.lbl) := by
  simp [chipNext, hwel, hwel', hd, pend]

theorem chipNext_of_wel_next {s' : State n} (h : s'.wel = false) :
    chipNext s s' mem float = mem := by
  simp [chipNext, h]

theorem next_of_write (hzero : s.phase ≠ 0) (hcycle : s.writeCycle = true) :
    next c s mem bus float = writeStep c s (defaults c s bus (sramD s mem float)) := by
  rw [next, step, if_neg hzero, if_pos hcycle]

theorem inv_next_writeLo (hwait : 3 ≤ c.waitCycles) (addr : BitVec 18)
    (hphase : 1 ≤ s.phase ∧ s.phase ≤ c.waitCycles - 1)
    (hcycle : s.writeCycle = true) (hwel : s.wel = false) (ha : s.a = addr ++ 0#1)
    (hd : 2 ≤ s.phase → s.d = some (s.outWord.extractLsb 15 0))
    (hmem : words (pendHi (pend mem (addr ++ 0#1) (s.outWord.extractLsb 15 0) (!s.ubl) (!s.lbl))
      addr s.outWord s.byteSelHi) = w) :
    Inv c (next c s mem bus float) (chipNext s (next c s mem bus float) mem float) w bus' := by
  rw [next_of_write (by omega) hcycle]
  by_cases hone : s.phase = 1
  · rw [writeStep, if_pos hone, chipNext_of_wel_next]
    · refine inv_quiet rfl rfl (.writeLo addr ?_ hcycle hwel ha (fun _ => rfl) hmem)
      dsimp only
      omega
    · exact hwel
  by_cases hend : s.phase = c.waitCycles - 1
  · -- the lower half is written
    rw [writeStep, if_neg hone, Config.writeUpperHalf, if_pos hend,
      chipNext_terminate hwel (by rfl) (hd (by omega)), ha]
    by_cases hsel : s.byteSelHi = 0b00#2
    · refine inv_quiet rfl rfl (.idle ?_ rfl ?_)
      · simp [terminateWrite, hsel]
      · simpa [pendHi, hsel] using hmem
    · refine inv_quiet rfl rfl (.writeMid addr ?_ hcycle rfl ha hmem)
      simp only [terminateWrite, ne_eq, hsel, not_false_eq_true, if_true]
      omega
  · rw [writeStep, if_neg hone, Config.writeUpperHalf, Config.writeTerminate, if_neg hend,
      if_neg (by omega), if_neg (by omega), if_neg (by omega), chipNext_of_wel_next]
    · refine inv_quiet rfl rfl (.writeLo addr ?_ hcycle hwel ha ?_ hmem)
      · dsimp only
        omega
      · exact fun _ => hd (by omega)
    · exact hwel

theorem inv_next_writeMid (hwait : 3 ≤ c.waitCycles) (addr : BitVec 18)
    (hphase : s.phase = c.waitCycles) (hcycle : s.writeCycle = true) (hwel : s.wel = true)
    (ha : s.a = addr ++ 0#1) (hmem : words (pendHi mem addr s.outWord s.byteSelHi) = w) :
    Inv c (next c s mem bus float) (chipNext s (next c s mem bus float) mem float) w bus' := by
  rw [chipNext_of_wel hwel, next_of_write (by omega) hcycle, writeStep, Config.writeUpperHalf,
    if_neg (by omega), if_neg (by omega), if_pos hphase]
  refine inv_quiet rfl rfl (.writeHi addr ?_ hcycle rfl ?_ ⟨rfl, rfl⟩ ?_ hmem)
  · dsimp only
    omega
  · simp [ha, bumpAddr_append]
  · dsimp only
    omega

theorem inv_next_writeHi (hwait : 3 ≤ c.waitCycles) (addr : BitVec 18)
    (hphase : c.waitCycles ≤ s.phase ∧ s.phase ≤ c.waitCycles * 2 - 1)
    (hcycle : s.writeCycle = true) (hwel : s.wel = false) (ha : s.a = addr ++ 1#1)
    (hlanes : s.ubl = !s.byteSelHi.getLsbD 1 ∧ s.lbl = !s.byteSelHi.getLsbD 0)
    (hd : c.waitCycles + 2 ≤ s.phase → s.d = some (s.outWord.extractLsb 31 16))
    (hmem : words (pendHi mem addr s.outWord s.byteSelHi) = w) :
    Inv c (next c s mem bus float) (chipNext s (next c s mem bus float) mem float) w bus' := by
  rw [next_of_write (by omega) hcycle, writeStep, Config.writeUpperHalf, Config.writeTerminate,
    if_neg (by omega), if_neg (by omega)]
  by_cases hmid : s.phase = c.waitCycles
  · rw [if_pos hmid, chipNext_of_wel_next]
    · refine inv_quiet rfl rfl (.writeHi addr ?_ hcycle rfl ?_ ⟨rfl, rfl⟩ ?_ hmem)
      · dsimp only
        omega
      · simp [ha, bumpAddr_append]
      · dsimp only
        omega
    · rfl
  by_cases hhi : s.phase = c.waitCycles + 1
  · rw [if_neg hmid, if_pos hhi, chipNext_of_wel_next]
    · refine inv_quiet rfl rfl (.writeHi addr ?_ hcycle hwel ha hlanes (fun _ => rfl) hmem)
      dsimp only
      omega
    · exact hwel
  by_cases hlast : s.phase = c.waitCycles * 2 - 1
  · -- the upper half is written
    rw [if_neg hmid, if_neg hhi, if_pos hlast, chipNext_terminate hwel (by rfl) (hd (by omega)), ha,
      hlanes.1, hlanes.2, Bool.not_not, Bool.not_not]
    exact inv_quiet rfl rfl (.idle rfl rfl hmem)
  · rw [if_neg hmid, if_neg hhi, if_neg hlast, chipNext_of_wel_next]
    · refine inv_quiet rfl rfl (.writeHi addr ?_ hcycle hwel ha hlanes ?_ hmem)
      · dsimp only
        omega
      · exact fun _ => hd (by omega)
    · exact hwel

/-- Every clock keeps the invariant. -/
theorem Inv.next (hwait : 3 ≤ c.waitCycles) (hkeeps : Keeps s bus bus') (h : Inv c s mem w bus) :
    Inv c (next c s mem bus float) (chipNext s (Sram.next c s mem bus float) mem float)
      (acceptWrites w s bus) bus' := by
  cases h.mode with
  | idle hphase hwel hmem =>
      exact inv_next_idle hwait hkeeps hphase hwel hmem
  | read hphase hcycle hwel hlanes hd hmem hreq ha hlow hack =>
      exact inv_next_read hwait hkeeps hphase hcycle hwel hlanes hd hmem hreq ha hlow hack h.quiet
  | writeLo addr hphase hcycle hwel ha hd hmem =>
      exact inv_next_writeLo hwait addr hphase hcycle hwel ha hd hmem
  | writeMid addr hphase hcycle hwel ha hmem =>
      exact inv_next_writeMid hwait addr hphase hcycle hwel ha hmem
  | writeHi addr hphase hcycle hwel ha hlanes hd hmem =>
      exact inv_next_writeHi hwait addr hphase hcycle hwel ha hlanes hd hmem

end Step

end Sram
end F32c
