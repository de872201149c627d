import F32c.Sdram.Protocol

/-!
# Requests and answers

An observer next to the controller and its chip writes three logs: the requests
accepted, in order, with the port each came from; the READ and WRITE accesses
the chip performs, with the row that is open in the addressed bank and, for a
WRITE, the two data beats on the bus; and the `data_ready` pulses, with the port
and the `last` flag.

At every clock the accesses the log misses are exactly the pending ones, and the
pulses it misses are exactly the answers in flight or still owed.
-/

namespace F32c
namespace Sdram

/-- A location of the chip. -/
structure Loc where
  row : BitVec 13
  bank : BitVec 2
  col : BitVec 13
deriving DecidableEq, Repr

/-- The location of a 32-bit word: columns first, then banks, then rows. -/
def location (c : Config) (w : Nat) : Loc where
  row := BitVec.ofNat 13 (w / 2 ^ (c.columnBits + 1))
  bank := BitVec.ofNat 2 (w / 2 ^ (c.columnBits - 1))
  col := BitVec.ofNat 13 (2 * (w % 2 ^ (c.columnBits - 1)))

/-- The word address of a request, within the address width of the device. -/
def wordAddr (c : Config) (r : Req) : Nat :=
  r.addr.toNat % 2 ^ (c.addressWidth - 1)

/-- One data beat on the bus: data and the byte lanes written. -/
abbrev Beat := Option (BitVec 16 × BitVec 2)

/-- An access the chip performs. -/
inductive Access where
  | read (l : Loc)
  | write (l : Loc) (first second : Beat)
deriving DecidableEq, Repr

/-- The accesses a request asks for. -/
def expectedAccesses (c : Config) (r : Req) : List Access :=
  if r.write then
    [.write (location c (wordAddr c r))
      (some (r.dataIn.extractLsb' 0 16, r.byteSel.extractLsb' 0 2))
      (some (r.dataIn.extractLsb' 16 16, r.byteSel.extractLsb' 2 2))]
  else
    (List.range (r.burstLen.toNat + 1)).map
      (fun k => .read (location c (wordAddr c r + k)))

/-- The pulses that answer a request: the port and the `last` flag of each. -/
def expectedPulses (p : Nat) (r : Req) : List (Nat × Bool) :=
  if r.write then [(p, true)]
  else (lastFlags (r.burstLen.toNat + 1)).map (fun l => (p, l))

/-- The data beat driven by the controller. -/
def beat (s : State) : Beat :=
  if s.iobDqHiz then none else some (s.iobData, ~~~s.iobDqm)

/-- The access on the pins; a WRITE takes its second beat one clock later. -/
def accessOn (ch : Chip) (s t : State) : List Access :=
  let row := (ch.rows s.iobBank).getD 0
  match s.iobCommand with
  | .read => [.read ⟨row, s.iobBank, s.iobAddress⟩]
  | .write => [.write ⟨row, s.iobBank, s.iobAddress⟩ (beat s) (beat t)]
  | _ => []

/-- The pulses of the response ports. -/
def pulsesOn (c : Config) (s : State) : List (Nat × Bool) :=
  ((List.range c.ports).filter s.readyOut).map (fun p => (p, s.lastOut p))

/-- The controller, its chip and the logs of the observer. -/
structure Observed where
  sys : System
  accepted : List (Nat × Req)
  accesses : List Access
  pulses : List (Nat × Bool)

/-- One clock as the observer sees it. -/
def Observed.step (c : Config) (o : Observed) (i : Input) : Observed where
  sys := o.sys.step c i
  accepted := o.accepted ++
    if acceptingNew o.sys.ctrl i then [(o.sys.ctrl.nextPort, curReq o.sys.ctrl i)] else []
  accesses := o.accesses ++ accessOn o.sys.chip o.sys.ctrl (o.sys.step c i).ctrl
  pulses := o.pulses ++ pulsesOn c o.sys.ctrl

section Address

variable {c : Config}

/-- The next word, as the burst logic computes it. -/
def nextLoc (c : Config) (l : Loc) : Loc :=
  let wrap : Bool :=
    l.col.extractLsb' 1 (c.columnBits - 1) == BitVec.allOnes (c.columnBits - 1)
  { row := if wrap && l.bank == 3#2 then l.row + 1#13 else l.row
    bank := if wrap then l.bank + 1#2 else l.bank
    col := (l.col + 2#13) &&& ~~~(BitVec.twoPow 13 c.columnBits) }

/-- Words that fill one row of a bank. -/
def Config.rowWords (c : Config) : Nat := 2 ^ (c.columnBits - 1)

theorem rowWords_pos (c : Config) : 0 < c.rowWords :=
  Nat.two_pow_pos _

theorem two_rowWords (c : Config) : 2 * c.rowWords = 2 ^ c.columnBits := by
  have h := c.columnBits_range
  unfold Config.rowWords
  rw [← Nat.pow_succ']
  congr 1
  omega

theorem rowWords_le (c : Config) : c.rowWords ≤ 2048 := by
  have h := c.columnBits_range
  have h1 : c.rowWords ≤ 2 ^ 11 := Nat.pow_le_pow_right (by omega) (by omega)
  omega

theorem location_eq (w : Nat) :
    location c w =
      { row := BitVec.ofNat 13 (w / c.rowWords / 4)
        bank := BitVec.ofNat 2 (w / c.rowWords)
        col := BitVec.ofNat 13 (2 * (w % c.rowWords)) } := by
  have h : 2 ^ (c.columnBits + 1) = c.rowWords * 4 := by
    rw [Nat.pow_succ, ← two_rowWords]
    omega
  unfold location
  rw [h, Nat.div_div_eq_div_mul]
  rfl

theorem toNat_col (w : Nat) : (location c w).col.toNat = 2 * (w % c.rowWords) := by
  have h1 := rowWords_le c
  have h2 := Nat.mod_lt w (rowWords_pos c)
  rw [location_eq]
  simp only [BitVec.toNat_ofNat]
  omega

theorem wrap_location (w : Nat) :
    ((location c w).col.extractLsb' 1 (c.columnBits - 1) ==
      BitVec.allOnes (c.columnBits - 1)) = decide (w % c.rowWords + 1 = c.rowWords) := by
  have h1 := rowWords_pos c
  have h2 := Nat.mod_lt w h1
  rw [Bool.eq_iff_iff, beq_iff_eq, decide_eq_true_iff, ← BitVec.toNat_inj,
    BitVec.extractLsb'_toNat, toNat_col, BitVec.toNat_allOnes]
  have h3 : (2 * (w % c.rowWords)) >>> 1 = w % c.rowWords := by
    rw [Nat.shiftRight_eq_div_pow]
    omega
  rw [h3]
  change (w % c.rowWords) % c.rowWords = c.rowWords - 1 ↔ _
  rw [Nat.mod_mod]
  omega

/-- Clearing the carry out of the column bits. -/
theorem clear_carry {x : BitVec 13} {n : Nat} (hn : n < 13) (hx : x.toNat ≤ 2 ^ n) :
    (x &&& ~~~(BitVec.twoPow 13 n)).toNat = x.toNat % 2 ^ n := by
  rcases Nat.lt_or_eq_of_le hx with h | h
  · have hbit : x &&& ~~~(BitVec.twoPow 13 n) = x := by
      ext k hk
      simp only [BitVec.getElem_and, BitVec.getElem_not, BitVec.getElem_twoPow]
      by_cases hkn : k = n
      · subst hkn
        have : x[k] = false := by
          rw [← BitVec.getLsbD_eq_getElem]
          exact Nat.testBit_lt_two_pow h
        simp [this]
      · simp [hkn]
    rw [hbit, Nat.mod_eq_of_lt h]
  · have hx' : x = BitVec.twoPow 13 n := by
      apply BitVec.eq_of_toNat_eq
      rw [h, BitVec.toNat_twoPow, Nat.mod_eq_of_lt]
      exact Nat.pow_lt_pow_right (by omega) hn
    rw [hx']
    simp [BitVec.toNat_twoPow, Nat.mod_eq_of_lt (Nat.pow_lt_pow_right (by omega : 1 < 2) hn)]

/-- The burst logic steps to the next word across columns, banks and rows. -/
theorem nextLoc_location (w : Nat) : nextLoc c (location c w) = location c (w + 1) := by
  have h1 := rowWords_pos c
  have h2 := Nat.mod_lt w h1
  have h3 := rowWords_le c
  have hcol := toNat_col (c := c) w
  have h4 : (location c w).col.toNat + 2 ≤ 2 ^ c.columnBits := by
    rw [hcol, ← two_rowWords]
    omega
  have h5 : ((location c w).col + 2#13).toNat = (location c w).col.toNat + 2 := by
    rw [BitVec.toNat_add]
    simp only [BitVec.toNat_ofNat]
    rw [hcol]
    omega
  have hcarry := clear_carry (x := (location c w).col + 2#13) (n := c.columnBits)
    (by have := c.columnBits_range; omega) (by omega)
  have hcol' : ((location c w).col + 2#13 &&& ~~~(BitVec.twoPow 13 c.columnBits)) =
      (location c (w + 1)).col := by
    apply BitVec.eq_of_toNat_eq
    rw [hcarry, h5, hcol, toNat_col, ← two_rowWords]
    rw [show 2 * (w % c.rowWords) + 2 = 2 * (w % c.rowWords + 1) by ring,
      Nat.mul_mod_mul_left, Nat.mod_add_mod]
  simp only [nextLoc, wrap_location, hcol']
  have hdiv := Nat.succ_div (a := w) (b := c.rowWords)
  rw [location_eq, location_eq]
  simp only [Loc.mk.injEq, and_true] at hdiv ⊢
  by_cases hw : w % c.rowWords + 1 = c.rowWords
  · have hd : c.rowWords ∣ w + 1 := by
      apply Nat.dvd_of_mod_eq_zero
      rw [← Nat.mod_add_mod, hw, Nat.mod_self]
    rw [hdiv, if_pos hd]
    simp only [hw, decide_true, Bool.true_and, if_true]
    refine ⟨?_, ?_⟩
    · by_cases hb : BitVec.ofNat 2 (w / c.rowWords) = 3#2
      · simp only [hb, beq_self_eq_true, if_true]
        have hb' : w / c.rowWords % 4 = 3 := by
          have := congrArg BitVec.toNat hb
          simpa using this
        rw [← BitVec.ofNat_add]
        congr 1
        omega
      · simp only [beq_iff_eq, hb, if_false]
        have hb' : w / c.rowWords % 4 ≠ 3 := by
          intro h
          apply hb
          apply BitVec.eq_of_toNat_eq
          simpa using h
        congr 1
        omega
    · rw [← BitVec.ofNat_add]
  · have hd : ¬c.rowWords ∣ w + 1 := by
      intro hd
      have h := Nat.mod_eq_zero_of_dvd hd
      rw [← Nat.mod_add_mod] at h
      rw [Nat.mod_eq_of_lt (by omega)] at h
      omega
    rw [hdiv, if_neg hd]
    simp [hw]

/-- The row, bank and column the controller splits an address into. -/
theorem location_request (r : Req) :
    location c (wordAddr c r) =
      ⟨addrRow c r.addr, addrBank c r.addr, addrCol c r.addr⟩ := by
  obtain ⟨hc1, hc2⟩ := c.columnBits_range
  obtain ⟨ha1, ha2, -⟩ := c.addressWidth_range
  set a := r.addr.toNat with ha
  have hrow : 2 ^ (c.addressWidth - 1) = 2 ^ (c.columnBits + 1) * 2 ^ c.rowBits := by
    rw [← Nat.pow_add]
    unfold Config.rowBits
    congr 1
    omega
  have hlow : 2 ^ (c.addressWidth - 1) =
      2 ^ (c.columnBits - 1) * (4 * 2 ^ c.rowBits) := by
    rw [hrow, show c.columnBits + 1 = c.columnBits - 1 + 2 by omega, Nat.pow_add]
    ring
  have hbits : 2 ^ c.rowBits ≤ 2 ^ 13 := by
    apply Nat.pow_le_pow_right (by omega)
    unfold Config.rowBits
    omega
  simp only [location, wordAddr, addrRow, addrBank, addrCol, Loc.mk.injEq]
  refine ⟨?_, ?_, ?_⟩
  · apply BitVec.eq_of_toNat_eq
    rw [BitVec.toNat_setWidth, BitVec.extractLsb'_toNat, Nat.shiftRight_eq_div_pow,
      BitVec.toNat_ofNat, ← ha, hrow, Nat.mod_mul_right_div_self]
    rfl
  · apply BitVec.eq_of_toNat_eq
    rw [BitVec.extractLsb'_toNat, Nat.shiftRight_eq_div_pow, BitVec.toNat_ofNat, ← ha, hlow,
      Nat.mod_mul_right_div_self]
    exact Nat.mod_mul_right_mod _ _ _
  · apply BitVec.eq_of_toNat_eq
    rw [BitVec.toNat_setWidth, BitVec.toNat_append, BitVec.extractLsb'_toNat,
      Nat.shiftRight_zero, BitVec.toNat_ofNat, ← ha, hlow, Nat.mod_mul_right_mod]
    simp [Nat.shiftLeft_eq, Nat.mul_comm]

end Address

/-- Reads of consecutive words. -/
def readsFrom (c : Config) : Nat → Loc → List Access
  | 0, _ => []
  | k + 1, l => .read l :: readsFrom c k (nextLoc c l)

theorem readsFrom_location (c : Config) (k w : Nat) :
    readsFrom c k (location c w) =
      (List.range k).map (fun j => .read (location c (w + j))) := by
  induction k generalizing w with
  | zero => rfl
  | succ k ih =>
      rw [readsFrom, nextLoc_location, ih, List.range_succ_eq_map]
      simp only [List.map_cons, List.map_map, Nat.add_zero]
      congr 2
      funext j
      simp [Nat.add_assoc, Nat.add_comm 1 j]

/-- The location held for the current transaction. -/
def saveLoc (s : State) : Loc := ⟨s.saveRow, s.saveBank, s.saveCol⟩

/-- The write held by the controller. -/
def saveWrite (s : State) : Access :=
  .write (saveLoc s)
    (some (s.saveDataIn.extractLsb' 0 16, s.saveByteEnable.extractLsb' 0 2))
    (some (s.saveDataIn.extractLsb' 16 16, s.saveByteEnable.extractLsb' 2 2))

/-- The accesses of the accepted requests that no command was issued for yet. -/
def pending (c : Config) (s : State) : List Access :=
  if s.state = .read1 then readsFrom c (s.saveBurstLen.toNat + 1) (saveLoc s)
  else if s.state = .read2 then readsFrom c s.saveBurstLen.toNat (nextLoc c (saveLoc s))
  else if s.state = .write1 then [saveWrite s]
  else if s.readyForNew then []
  else if s.saveWr then [saveWrite s]
  else readsFrom c (s.saveBurstLen.toNat + 1) (saveLoc s)

/-- The access whose command this clock schedules. -/
def issued (s : State) : List Access :=
  if s.state = .read1 then [.read (saveLoc s)]
  else if s.state = .write1 then [saveWrite s]
  else []

section Conservation

variable {c : Config} {s : State} {i : Input}

theorem expectedAccesses_eq (r : Req) :
    expectedAccesses c r =
      if r.write then
        [.write ⟨addrRow c r.addr, addrBank c r.addr, addrCol c r.addr⟩
          (some (r.dataIn.extractLsb' 0 16, r.byteSel.extractLsb' 0 2))
          (some (r.dataIn.extractLsb' 16 16, r.byteSel.extractLsb' 2 2))]
      else readsFrom c (r.burstLen.toNat + 1)
        ⟨addrRow c r.addr, addrBank c r.addr, addrCol c r.addr⟩ := by
  rw [expectedAccesses, ← readsFrom_location, location_request]

/-- While a burst goes on, the saved location advances word by word. -/
theorem saveLoc_step_read2 (h : Control c s) (hs : s.state = .read2)
    (hb : s.saveBurstLen ≠ 0#8) :
    saveLoc (step c s i) = nextLoc c (saveLoc s) := by
  have ha : acceptingNew s i = false := not_acceptingNew_of_read h (Or.inr hs)
  simp [saveLoc, nextLoc, step, syncReset, fsm, hs, fsmRead2, hb, capture, ha, defaults,
    apply_ite State.saveRow, apply_ite State.saveBank, apply_ite State.saveCol, lastColumn]
  grind -ring -linarith -order

theorem saveLoc_step (h : Control c s) (hs : s.state ≠ .read2) :
    saveLoc (step c s i) =
      if acceptingNew s i then
        ⟨addrRow c (curReq s i).addr, addrBank c (curReq s i).addr, addrCol c (curReq s i).addr⟩
      else saveLoc s := by
  have h1 := h.running
  cases hs : s.state <;>
    simp [saveLoc, step, syncReset, fsm, capture, hs,
      fsmIdle, fsmOpenIn1, fsmRead1,
      fsmRead3, fsmWrite1, fsmWrite2, fsmWrite3, fsmPrecharge, defaults,
      apply_ite State.saveRow, apply_ite State.saveBank, apply_ite State.saveCol] <;> grind -ring -linarith -order

theorem saveWrite_step (h : Control c s) (hs : s.state ≠ .read2) :
    saveWrite (step c s i) =
      if acceptingNew s i then
        .write
          ⟨addrRow c (curReq s i).addr, addrBank c (curReq s i).addr, addrCol c (curReq s i).addr⟩
          (some ((curReq s i).dataIn.extractLsb' 0 16, (curReq s i).byteSel.extractLsb' 0 2))
          (some ((curReq s i).dataIn.extractLsb' 16 16, (curReq s i).byteSel.extractLsb' 2 2))
      else saveWrite s := by
  have h1 := h.running
  unfold saveWrite
  rw [saveLoc_step h hs]
  cases hs : s.state <;>
    simp [step, syncReset, fsm, capture, hs,
      fsmIdle, fsmOpenIn1, fsmRead1,
      fsmRead3, fsmWrite1, fsmWrite2, fsmWrite3, fsmPrecharge, defaults,
      apply_ite State.saveDataIn, apply_ite State.saveByteEnable] <;> grind -ring -linarith -order

/--
Conservation of accesses: what is pending, together with what this clock
accepts, is what this clock issues followed by what stays pending.
-/
theorem pending_step (h : Control c s) (hr : i.reset = false) :
    pending c s ++ (if acceptingNew s i then expectedAccesses c (curReq s i) else []) =
      issued s ++ pending c (step c s i) := by
  have h0 := h.opening
  have h1 := h.running
  have h2 := h.reading
  have h3 := h.crossing
  have h4 := h.burst
  have h5 := h.writing
  have h6 : acceptingNew s i = true → s.readyForNew = true := fun ha =>
    (ready_of_acceptingNew ha).1
  have h7 : s.state = .read1 ∨ s.state = .read2 → acceptingNew s i = false :=
    not_acceptingNew_of_read h
  have h8 : s.saveBurstLen ≠ 0#8 → s.saveBurstLen.toNat = (s.saveBurstLen - 1).toNat + 1 :=
    fun hb => (toNat_sub_one hb).symm
  have h9 : (0#8).toNat = 0 := rfl
  have h10 := saveLoc_step_read2 (i := i) h
  have h11 := saveLoc_step (i := i) h
  have h12 := saveWrite_step (i := i) h
  rw [expectedAccesses_eq]
  unfold pending issued
  generalize saveLoc (step c s i) = loc at *
  generalize saveWrite (step c s i) = wr at *
  cases hs : s.state <;>
    simp [step, syncReset, fsm, capture, hr, hs,
      fsmIdle, fsmOpenIn1, fsmRead1, fsmRead2,
      fsmRead3, fsmWrite1, fsmWrite2, fsmWrite3, fsmPrecharge, defaults,
      apply_ite State.readyForNew, apply_ite State.state, apply_ite State.saveWr,
      apply_ite State.saveBurstLen] <;> grind -ring -linarith -order [readsFrom]

end Conservation

end Sdram
end F32c
