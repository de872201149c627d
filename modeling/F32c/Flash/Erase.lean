import F32c.Flash.Disk
import Mathlib.Tactic

/-!
# Waiting, reading and erasing

What one command of the driver does to a chip that is not busy, and what the erase loop
leaves behind.  A block erase is trusted when it is flagged; otherwise it is verified, and
the method that did not work is given up, so the loop makes some number of turns in place.
-/

namespace F32c
namespace Flash

open Nor

variable {p : Part} {c : Chip}

section Transactions

/-- A transaction whose end has no effect. -/
def Harmless (shift : List Byte) : Prop :=
  ∀ cmd, shift.head? = some cmd → cmd = cmdRdsr ∨ cmd = cmdFastrd

/-- A chip that is not busy, and not in the auto address increment mode. -/
structure Quiet (c : Chip) : Prop where
  busy : c.busy = 0
  aai : c.aai = none
  shift : Harmless c.shift

/-- Reads of the memory and of the status register have no effect when they end. -/
theorem command_read {cmd : Byte} (h : cmd = cmdRdsr ∨ cmd = cmdFastrd) (args : List Byte) :
    c.command p cmd args = c := by
  unfold Chip.command Chip.addressed
  rcases h with rfl | rfl
  · split <;> simp +decide
  · split <;> simp +decide

theorem aaiCommand_read {cmd : Byte} (h : cmd = cmdRdsr ∨ cmd = cmdFastrd) (addr : Nat)
    (args : List Byte) : c.aaiCommand p addr cmd args = c := by
  unfold Chip.aaiCommand
  rcases h with rfl | rfl
  · simp +decide
  · simp +decide

theorem execute_of_harmless (h : Harmless c.shift) : c.execute p = c := by
  unfold Chip.execute
  cases hshift : c.shift with
  | nil =>
      rfl
  | cons cmd args =>
      have hcmd : cmd = cmdRdsr ∨ cmd = cmdFastrd := h cmd (by rw [hshift]; rfl)
      dsimp only
      split
      · rfl
      · cases c.aai with
        | none => exact command_read hcmd args
        | some addr => exact aaiCommand_read hcmd addr args

theorem harmless_rdsr : Harmless [cmdRdsr, cmdRdsr] :=
  fun _ hcmd => .inl (Option.some.inj hcmd).symm

theorem spiSend_eq {out : List Byte} (h : (c.shift ++ out).head? ≠ some cmdRdsr) :
    spiSend c out = { c with shift := c.shift ++ out } := by
  induction out generalizing c with
  | nil =>
      simp [spiSend]
  | cons b out ih =>
      have hhead : c.shift.head? ≠ some cmdRdsr := by
        intro heq
        rw [List.head?_append, heq] at h
        simp at h
      have hnext := @ih (c.receive b) (by simpa [Chip.receive] using h)
      rw [spiSend, List.foldl_cons]
      exact hnext.trans (by simp [Chip.receive, hhead])

/-- A new transaction of a chip whose last one has no effect. -/
theorem spiSend_start {cmd : Byte} {args : List Byte} (h : Harmless c.shift)
    (hcmd : cmd ≠ cmdRdsr) :
    spiSend (spiStartTransaction p c) (cmd :: args) = { c with shift := cmd :: args } := by
  rw [spiStartTransaction, execute_of_harmless h, spiSend_eq]
  · simp
  · simpa using hcmd

theorem status_busy : (c.status &&& 1#8 ≠ 0#8) ↔ c.busy ≠ 0 := by
  unfold Chip.status
  rw [← bne_iff_ne (a := c.busy)]
  generalize (c.busy != 0) = b
  generalize c.aai.isSome = a
  generalize c.wel = w
  revert a b w
  decide

/-- Waiting ends the transaction, and ends when the memory is not busy any more. -/
theorem busyWait_eq {fuel : Nat} (h : (c.execute p).busy < fuel) :
    busyWait p fuel c =
      some { c.execute p with
        busy := 0
        shift := [cmdRdsr, cmdRdsr] } := by
  induction fuel generalizing c with
  | zero =>
      omega
  | succ fuel ih =>
      have hsend : spiSend (spiStartTransaction p c) [cmdRdsr] =
          { c.execute p with shift := [cmdRdsr] } := rfl
      rw [busyWait, hsend]
      dsimp only [spiByte]
      have hreply : Chip.reply { c.execute p with shift := [cmdRdsr] } = (c.execute p).status := rfl
      have hreceive : Chip.receive { c.execute p with shift := [cmdRdsr] } cmdRdsr =
          { c.execute p with
            busy := (c.execute p).busy - 1
            shift := [cmdRdsr, cmdRdsr] } := rfl
      rw [hreply, hreceive]
      by_cases hbusy : (c.execute p).busy = 0
      · rw [if_neg (by rw [status_busy]; simpa using hbusy), hbusy]
      · -- the memory is still busy
        rw [if_pos (status_busy.2 hbusy)]
        have hnext := @ih { c.execute p with
          busy := (c.execute p).busy - 1
          shift := [cmdRdsr, cmdRdsr] }
        rw [execute_of_harmless harmless_rdsr] at hnext
        exact hnext (by dsimp only; omega)

end Transactions

section Reading

variable {addr len : Nat}

/-- The next byte of a read comes from the address `addr`. -/
structure Reading (addr : Nat) (c : Chip) : Prop where
  busy : c.busy = 0
  aai : c.aai = none
  shift : ∃ a2 a1 a0 d rest, c.shift = cmdFastrd :: a2 :: a1 :: a0 :: d :: rest ∧
    address a2 a1 a0 + rest.length = addr

theorem Reading.quiet (h : Reading addr c) : Quiet c := by
  obtain ⟨a2, a1, a0, d, rest, hshift, -⟩ := h.shift
  refine ⟨h.busy, h.aai, ?_⟩
  intro cmd hcmd
  rw [hshift] at hcmd
  exact .inr (Option.some.inj hcmd).symm

theorem Reading.reply (h : Reading addr c) (hlt : addr < 2 ^ 24) : c.reply = c.mem addr := by
  obtain ⟨a2, a1, a0, d, rest, hshift, haddr⟩ := h.shift
  rw [Chip.reply, hshift]
  dsimp only
  rw [if_neg (by decide), if_pos ⟨rfl, h.busy, h.aai⟩, haddr, Nat.mod_eq_of_lt hlt]

theorem Reading.receive (h : Reading addr c) (out : Byte) : Reading (addr + 1) (c.receive out) := by
  obtain ⟨a2, a1, a0, d, rest, hshift, haddr⟩ := h.shift
  refine ⟨?_, h.aai, a2, a1, a0, d, rest ++ [out], ?_, ?_⟩
  · simp [Chip.receive, hshift, h.busy]
  · simp [Chip.receive, hshift]
  · simp only [List.length_append, List.length_singleton]
    omega

/-- The address bytes of a command, for an address whose lowest byte is zero. -/
theorem address_addressed (hlow : addr % 256 = 0) (hlt : addr < 2 ^ 24) :
    address (BitVec.ofNat 8 (addr >>> 16)) (BitVec.ofNat 8 (addr >>> 8)) 0#8 = addr := by
  simp only [address, BitVec.toNat_ofNat, Nat.shiftRight_eq_div_pow]
  omega

theorem reading_start (h : Quiet c) (hlow : addr % 256 = 0) (hlt : addr < 2 ^ 24) :
    Reading addr (spiSend (spiStartTransaction p c) (addressed cmdFastrd addr ++ [0#8])) ∧
      (spiSend (spiStartTransaction p c) (addressed cmdFastrd addr ++ [0#8])).mem = c.mem := by
  rw [addressed, List.cons_append, spiSend_start h.shift (by decide)]
  refine ⟨⟨h.busy, h.aai, BitVec.ofNat 8 (addr >>> 16), BitVec.ofNat 8 (addr >>> 8), 0#8, 0#8, [],
    rfl, ?_⟩, rfl⟩
  rw [List.length_nil, Nat.add_zero, address_addressed hlow hlt]

theorem blankLoop_spec (h : Reading addr c) (hle : addr + len ≤ 2 ^ 24) :
    ((blankLoop len c).1 = true ↔ Blank c.mem addr len) ∧ Quiet (blankLoop len c).2 ∧
      (blankLoop len c).2.mem = c.mem := by
  induction len generalizing addr c with
  | zero =>
      exact ⟨iff_of_true rfl blank_zero, h.quiet, rfl⟩
  | succ len ih =>
      rw [blankLoop, spiByte, h.reply (by omega), blank_succ]
      dsimp only
      by_cases hbyte : c.mem addr = 0xff#8
      · obtain ⟨hblank, hquiet, hmem⟩ := ih (h.receive 0#8) (by omega)
        rw [if_neg (by simpa using hbyte)]
        exact ⟨hblank.trans (and_iff_right hbyte).symm, hquiet, hmem⟩
      · rw [if_pos hbyte]
        exact ⟨iff_of_false (by simp) fun hall => hbyte hall.1, (h.receive 0#8).quiet, rfl⟩

theorem blankCheck_spec (h : Quiet c) (hlow : addr % 256 = 0) (hlt : addr < 2 ^ 24)
    (hle : addr + len ≤ 2 ^ 24) :
    ((blankCheck p addr len c).1 = true ↔ Blank c.mem addr len) ∧
      Quiet (blankCheck p addr len c).2 ∧ (blankCheck p addr len c).2.mem = c.mem := by
  obtain ⟨hreading, hmem⟩ := @reading_start p c addr h hlow hlt
  have hloop := blankLoop_spec hreading hle
  rw [hmem] at hloop
  exact hloop

theorem spiBlockIn_spec (h : Reading addr c) (hle : addr + len ≤ 2 ^ 24) :
    (spiBlockIn c len).1 = read c.mem addr len ∧ Quiet (spiBlockIn c len).2 ∧
      (spiBlockIn c len).2.mem = c.mem := by
  induction len generalizing addr c with
  | zero =>
      exact ⟨rfl, h.quiet, rfl⟩
  | succ len ih =>
      obtain ⟨hbytes, hquiet, hmem⟩ := ih (h.receive 0xff#8) (by omega)
      rw [spiBlockIn, spiByte, h.reply (by omega), Nor.read]
      exact ⟨congrArg _ hbytes, hquiet, hmem⟩

end Reading

section Operations

variable {addr cnt : Nat} {data : List Byte}

theorem execute_addressed {cmd a2 a1 a0 : Byte} (hbusy : c.busy = 0) (haai : c.aai = none)
    (hwel : c.wel = true) (hshift : c.shift = cmd :: a2 :: a1 :: a0 :: data) :
    c.execute p = c.addressed p cmd (address a2 a1 a0) data := by
  rw [Chip.execute, hshift]
  simp [hbusy, haai, Chip.command, hwel]

/-- After `WREN` the write enable latch is set. -/
theorem start_writeEnable (h : Quiet c) :
    spiStartTransaction p (writeEnable p c) =
      { c with
        wel := true
        shift := [] } := by
  rw [writeEnable, spiSend_start h.shift (by decide), spiStartTransaction]
  simp [Chip.execute, h.busy, h.aai, Chip.command]

theorem addressed_aai {cmd : Byte} (hcmd : cmd ≠ cmdAaiwr) :
    (c.addressed p cmd addr data).aai = c.aai := by
  unfold Chip.addressed Chip.operate
  split_ifs with h1 h2
  · rfl
  · exact absurd h2.1 hcmd
  · rfl
  · rfl
  · rfl
  · rfl

/-- An enabled command with an address, up to the end of its operation. -/
theorem busyWait_enabled {cmd : Byte} (h : Quiet c) (hrdsr : cmd ≠ cmdRdsr) (haai : cmd ≠ cmdAaiwr)
    (hlow : addr % 256 = 0) (hlt : addr < 2 ^ 24) :
    ∃ N d, (∀ fuel, N ≤ fuel → busyWait p fuel
        (spiSend (spiStartTransaction p (writeEnable p c)) (addressed cmd addr ++ data)) = some d) ∧
      Quiet d ∧
      d.mem = (Chip.addressed p
        { c with
          wel := true
          shift := addressed cmd addr ++ data } cmd addr data).mem := by
  have hsend : spiSend (spiStartTransaction p (writeEnable p c)) (addressed cmd addr ++ data) =
      { c with
        wel := true
        shift := addressed cmd addr ++ data } := by
    rw [start_writeEnable h, spiSend_eq (by simpa [addressed] using hrdsr), List.nil_append]
  have hexec := @execute_addressed p
    { c with
      wel := true
      shift := addressed cmd addr ++ data }
    data cmd _ _ _ h.busy h.aai rfl rfl
  rw [address_addressed hlow hlt] at hexec
  rw [hsend, ← hexec]
  refine ⟨_, _, fun fuel hfuel => busyWait_eq (Nat.lt_of_succ_le hfuel), ⟨rfl, ?_, harmless_rdsr⟩,
    rfl⟩
  rw [hexec]
  exact (addressed_aai haai).trans h.aai

/-- A page program within a page. -/
theorem programPage_eq {m : Contents 8} {page off : Nat} (h : off + data.length ≤ 256) :
    programPage m page off data = program m (page + off) data := by
  induction data generalizing m off with
  | nil =>
      rfl
  | cons d data ih =>
      rw [List.length_cons] at h
      rw [programPage, program]
      cases data with
      | nil =>
          rfl
      | cons e data =>
          rw [List.length_cons] at h
          rw [Nat.mod_eq_of_lt (by omega), ih (by rw [List.length_cons]; omega), Nat.add_assoc]

end Operations

section EraseSectors

variable {flags : Byte} {addr cnt : Nat}

/-- Whether the chip has an erase command. -/
def Part.erases (p : Part) (cmd : Byte) : Bool :=
  if cmd = cmdBer64k then p.ber64k else if cmd = cmdBer32k then p.ber32k else cmd == cmdSer

/-- The flags of the block erases do not promise what the chip does not do. -/
structure Trusted (p : Part) (flags : Byte) : Prop where
  ber32k : flags &&& fBer32k ≠ 0#8 → flags &&& fBer32kBroken = 0#8 → p.ber32k = true
  ber64k : flags &&& fBer64k ≠ 0#8 → flags &&& fBer64kBroken = 0#8 → p.ber64k = true

/-- The methods of the loop: the range is aligned to the erased block, and covers it. -/
inductive Method (flags : Byte) (addr cnt : Nat) : EraseCmd → Prop
  | ber64k (hok : flags &&& fBer64kBroken = 0#8) (haddr : addr % 65536 = 0) (hcnt : 16 ≤ cnt) :
      Method flags addr cnt ⟨cmdBer64k, fBer64k, 16⟩
  | ber32k (hok : flags &&& fBer32kBroken = 0#8) (haddr : addr % 32768 = 0) (hcnt : 8 ≤ cnt) :
      Method flags addr cnt ⟨cmdBer32k, fBer32k, 8⟩
  | ser : Method flags addr cnt ⟨cmdSer, 0#8, 1⟩

theorem eraseCmd_method : Method flags addr cnt (eraseCmd flags addr cnt) := by
  unfold eraseCmd
  split_ifs with h64 h32
  · exact .ber64k h64.1 ((Nat.and_two_pow_sub_one_eq_mod addr 16).symm.trans h64.2.1) h64.2.2
  · exact .ber32k h32.1 ((Nat.and_two_pow_sub_one_eq_mod addr 15).symm.trans h32.2.1) h32.2.2
  · exact .ser

theorem Method.step_pos {e : EraseCmd} (h : Method flags addr cnt e) (hcnt : cnt ≠ 0) :
    1 ≤ e.step ∧ e.step ≤ cnt := by
  cases h with
  | ber64k _ _ hcnt => exact ⟨by decide, hcnt⟩
  | ber32k _ _ hcnt => exact ⟨by decide, hcnt⟩
  | ser => exact ⟨Nat.le_refl _, Nat.one_le_iff_ne_zero.2 hcnt⟩

/-- An erase command clears the range of its step, or has no effect. -/
theorem Method.mem_eq {e : EraseCmd} (h : Method flags addr cnt e) (haddr : addr % 4096 = 0) :
    (c.addressed p e.cmd addr []).mem =
      if p.erases e.cmd then erase c.mem addr (e.step * flashSeclen) else c.mem := by
  have hbase : ∀ k, addr % k = 0 → addr / k * k = addr :=
    fun k hk => Nat.div_mul_cancel (Nat.dvd_of_mod_eq_zero hk)
  unfold Chip.addressed
  cases h with
  | ber64k _ hblock _ =>
      simp +decide only [false_and, if_false, true_and, Part.erases, if_true, hbase 65536 hblock]
      cases p.ber64k <;> rfl
  | ber32k _ hblock _ =>
      simp +decide only [false_and, if_false, true_and, Part.erases, if_true, hbase 32768 hblock]
      cases p.ber32k <;> rfl
  | ser =>
      simp +decide only [false_and, if_false, if_true, Part.erases, hbase 4096 haddr]
      rfl

theorem Method.cmd_ne {e : EraseCmd} (h : Method flags addr cnt e) :
    e.cmd ≠ cmdRdsr ∧ e.cmd ≠ cmdAaiwr := by
  cases h <;> decide

/-- A flagged method works. -/
theorem Method.erases_of_trusted {e : EraseCmd} (h : Method flags addr cnt e)
    (htrusted : Trusted p flags) (hflag : e.flag = 0#8 ∨ e.flag &&& flags ≠ 0#8) :
    p.erases e.cmd = true := by
  rw [BitVec.and_comm] at hflag
  cases h with
  | ber64k hok _ _ =>
      exact htrusted.ber64k (hflag.resolve_left (by decide)) hok
  | ber32k hok _ _ =>
      exact htrusted.ber32k (hflag.resolve_left (by decide)) hok
  | ser =>
      rfl

theorem or_and_of_disjoint {x a b : Byte} (h : a &&& b = 0#8) : (x ||| a) &&& b = x &&& b := by
  rw [BitVec.and_or_distrib_right, h, BitVec.or_zero]

/-- A method that was seen to work may be flagged. -/
theorem Method.trusted_works {e : EraseCmd} (h : Method flags addr cnt e)
    (htrusted : Trusted p flags) (hworks : p.erases e.cmd = true) :
    Trusted p (flags ||| e.flag) := by
  cases h with
  | ber64k _ _ _ =>
      refine ⟨?_, fun _ _ => hworks⟩
      rw [or_and_of_disjoint (by decide), or_and_of_disjoint (by decide)]
      exact htrusted.ber32k
  | ber32k _ _ _ =>
      refine ⟨fun _ _ => hworks, ?_⟩
      rw [or_and_of_disjoint (by decide), or_and_of_disjoint (by decide)]
      exact htrusted.ber64k
  | ser =>
      rwa [BitVec.or_zero]

/-- The number of methods that may still turn out not to work. -/
def retries (flags : Byte) : Nat :=
  (if flags &&& fBer64kBroken = 0#8 then 1 else 0) +
    (if flags &&& fBer32kBroken = 0#8 then 1 else 0)

theorem or_and_self_ne {x b : Byte} (hb : b ≠ 0#8) : (x ||| b) &&& b ≠ 0#8 := by
  rw [BitVec.and_or_distrib_right, BitVec.and_self, Ne, BitVec.or_eq_zero_iff]
  exact fun h => hb h.2

/-- A method that did not work is not tried again. -/
theorem Method.trusted_broken {e : EraseCmd} (h : Method flags addr cnt e)
    (htrusted : Trusted p flags) (hflag : e.flag ≠ 0#8) :
    Trusted p (flags ||| e.flag <<< 1) ∧ retries (flags ||| e.flag <<< 1) < retries flags := by
  cases h with
  | ber64k hok _ _ =>
      change Trusted p (flags ||| fBer64kBroken) ∧ retries (flags ||| fBer64kBroken) < _
      have hset : (flags ||| fBer64kBroken) &&& fBer64kBroken ≠ 0#8 := or_and_self_ne (by decide)
      refine ⟨⟨?_, fun _ hb => absurd hb hset⟩, ?_⟩
      · rw [or_and_of_disjoint (by decide), or_and_of_disjoint (by decide)]
        exact htrusted.ber32k
      · rw [retries, retries, if_neg hset, if_pos hok, or_and_of_disjoint (by decide)]
        omega
  | ber32k hok _ _ =>
      change Trusted p (flags ||| fBer32kBroken) ∧ retries (flags ||| fBer32kBroken) < _
      have hset : (flags ||| fBer32kBroken) &&& fBer32kBroken ≠ 0#8 := or_and_self_ne (by decide)
      refine ⟨⟨fun _ hb => absurd hb hset, ?_⟩, ?_⟩
      · rw [or_and_of_disjoint (by decide), or_and_of_disjoint (by decide)]
        exact htrusted.ber64k
      · rw [retries, retries, if_neg hset, if_pos hok, or_and_of_disjoint (by decide)]
        omega
  | ser =>
      exact absurd rfl hflag

/-- The erase loop ends, and leaves a blank range and the rest of the memory as it was. -/
def Erases (p : Part) (flags : Byte) (addr cnt : Nat) (c : Chip) : Prop :=
  ∃ N flags' d, (∀ fuel, N ≤ fuel → eraseLoop p fuel flags addr cnt c = some (flags', d)) ∧
    Quiet d ∧ Trusted p flags' ∧ Blank d.mem addr (cnt * flashSeclen) ∧
    ∀ a, a < addr ∨ addr + cnt * flashSeclen ≤ a → d.mem a = c.mem a

/-- A turn that leaves a blank block behind. -/
theorem Erases.of_block {k : Nat} {flags' : Byte} {d : Chip} (hk : k ≤ cnt)
    (hblank : Blank d.mem addr (k * flashSeclen))
    (hsame : ∀ a, a < addr ∨ addr + k * flashSeclen ≤ a → d.mem a = c.mem a)
    (hturn : ∃ N, ∀ fuel, N ≤ fuel → eraseLoop p (fuel + 1) flags addr cnt c =
      eraseLoop p fuel flags' (addr + k * flashSeclen) (cnt - k) d)
    (hrest : Erases p flags' (addr + k * flashSeclen) (cnt - k) d) : Erases p flags addr cnt c := by
  obtain ⟨N, hN⟩ := hturn
  obtain ⟨M, flags'', d', hM, hquiet, htrusted, hblank', hsame'⟩ := hrest
  have hlen : cnt * flashSeclen = k * flashSeclen + (cnt - k) * flashSeclen := by
    rw [← Nat.add_mul, Nat.add_sub_of_le hk]
  refine ⟨N + M + 1, flags'', d', ?_, hquiet, htrusted, ?_, ?_⟩
  · intro fuel hfuel
    obtain ⟨fuel, rfl⟩ : ∃ f, fuel = f + 1 := ⟨fuel - 1, by omega⟩
    rw [hN fuel (by omega), hM fuel (by omega)]
  · rw [hlen, blank_add]
    refine ⟨hblank.congr fun a _ hhi => hsame' a (.inl hhi), hblank'⟩
  · intro a ha
    rw [hsame' a (by omega), hsame a (by omega)]

/-- A turn that stays in place and changes nothing. -/
theorem Erases.of_retry {flags' : Byte} {d : Chip} (hsame : d.mem = c.mem)
    (hturn : ∃ N, ∀ fuel, N ≤ fuel →
      eraseLoop p (fuel + 1) flags addr cnt c = eraseLoop p fuel flags' addr cnt d)
    (hrest : Erases p flags' addr cnt d) : Erases p flags addr cnt c := by
  obtain ⟨N, hN⟩ := hturn
  obtain ⟨M, flags'', d', hM, hquiet, htrusted, hblank, hsame'⟩ := hrest
  refine ⟨N + M + 1, flags'', d', ?_, hquiet, htrusted, hblank, hsame ▸ hsame'⟩
  intro fuel hfuel
  obtain ⟨fuel, rfl⟩ : ∃ f, fuel = f + 1 := ⟨fuel - 1, by omega⟩
  rw [hN fuel (by omega), hM fuel (by omega)]

theorem retries_le : retries flags ≤ 2 := by
  unfold retries
  split_ifs <;> omega

/-- One erase command of the loop. -/
theorem Method.busyWait {e : EraseCmd} (h : Method flags addr cnt e) (hquiet : Quiet c)
    (haddr : addr % 4096 = 0) (hlt : addr < 2 ^ 24) :
    ∃ N d, (∀ fuel, N ≤ fuel → Flash.busyWait p fuel
        (spiSend (spiStartTransaction p (writeEnable p c)) (addressed e.cmd addr)) = some d) ∧
      Quiet d ∧
      d.mem = if p.erases e.cmd then erase c.mem addr (e.step * flashSeclen) else c.mem := by
  obtain ⟨N, d, hwait, hquiet', hmem⟩ := @busyWait_enabled p c addr [] e.cmd hquiet h.cmd_ne.1
    h.cmd_ne.2 (by omega) hlt
  rw [h.mem_eq haddr] at hmem
  rw [List.append_nil] at hwait
  exact ⟨N, d, hwait, hquiet', hmem⟩

/-- A turn of the loop at a sector that is not blank, after its erase command. -/
theorem eraseLoop_erase {fuel : Nat} {c₁ d : Chip} {e : EraseCmd} (hcnt : cnt ≠ 0)
    (hcheck : blankCheck p addr flashSeclen c = (false, c₁)) (he : eraseCmd flags addr cnt = e)
    (hwait : Flash.busyWait p fuel
      (spiSend (spiStartTransaction p (writeEnable p c₁)) (addressed e.cmd addr)) = some d) :
    eraseLoop p (fuel + 1) flags addr cnt c =
      if e.flag = 0#8 ∨ e.flag &&& flags ≠ 0#8 then
        eraseLoop p fuel flags (addr + e.step * flashSeclen) (cnt - e.step) d
      else
        let works := blankCheck p addr (e.step * flashSeclen) d
        if works.1 then
          eraseLoop p fuel (flags ||| e.flag) (addr + e.step * flashSeclen) (cnt - e.step) works.2
        else eraseLoop p fuel (flags ||| e.flag <<< 1) addr cnt works.2 := by
  subst he
  rw [eraseLoop, if_neg hcnt, hcheck]
  dsimp only
  rw [if_neg (by simp), hwait]
  rfl

theorem eraseLoop_spec (h : Quiet c) (htrusted : Trusted p flags) (haddr : addr % 4096 = 0)
    (hle : addr + cnt * 4096 ≤ 2 ^ 24) : Erases p flags addr cnt c := by
  induction hm : cnt * 3 + retries flags using Nat.strongRecOn generalizing flags addr cnt c with
  | ind m ih =>
      by_cases hzero : cnt = 0
      · subst hzero
        refine ⟨1, flags, c, ?_, h, htrusted, ?_, fun _ _ => rfl⟩
        · intro fuel hfuel
          obtain ⟨fuel, rfl⟩ : ∃ f, fuel = f + 1 := ⟨fuel - 1, by omega⟩
          rw [eraseLoop, if_pos rfl]
        · rw [Nat.zero_mul]
          exact blank_zero
      have hseclen : flashSeclen = 4096 := rfl
      have hfew := @retries_le flags
      obtain ⟨hcheck, hquiet, hmem⟩ := @blankCheck_spec p c addr flashSeclen h (by omega) (by omega)
        (by omega)
      rcases hres : blankCheck p addr flashSeclen c with ⟨blank, c₁⟩
      rw [hres] at hcheck hquiet hmem
      dsimp only at hcheck hquiet hmem
      cases blank with
      | true =>
          -- the sector is blank already
          refine @Erases.of_block p c flags addr cnt 1 flags c₁ (by omega) ?_ ?_ ⟨0, ?_⟩
            (ih _ ?_ hquiet htrusted ?_ ?_ rfl)
          · rw [hmem, Nat.one_mul]
            exact hcheck.1 rfl
          · intro a _
            rw [hmem]
          · intro fuel _
            rw [eraseLoop, if_neg hzero, hres, Nat.one_mul]
            rfl
          · omega
          · omega
          · omega
      | false =>
          have hmethod := @eraseCmd_method flags addr cnt
          have hnot : ¬Blank c.mem addr flashSeclen := fun hb => by simpa using hcheck.2 hb
          obtain ⟨hpos, hstep⟩ := hmethod.step_pos hzero
          obtain ⟨N, d, hwait, hquiet', hmem'⟩ := @Method.busyWait p c₁ _ _ _ _ hmethod hquiet haddr
            (by omega)
          rw [hmem] at hmem'
          obtain ⟨e, he⟩ : ∃ e, eraseCmd flags addr cnt = e := ⟨_, rfl⟩
          rw [he] at hmethod hpos hstep hmem' hwait
          have hturn := fun fuel hfuel => eraseLoop_erase hzero hres he (hwait fuel hfuel)
          have hmore : addr + e.step * flashSeclen + (cnt - e.step) * 4096 ≤ 2 ^ 24 := by
            rw [hseclen]
            omega
          have halign : (addr + e.step * flashSeclen) % 4096 = 0 := by
            rw [hseclen]
            omega
          have hrest : ∀ {flags' c'}, Quiet c' → Trusted p flags' →
              Erases p flags' (addr + e.step * flashSeclen) (cnt - e.step) c' := by
            intro flags' c' hq ht
            have := @retries_le flags'
            exact ih _ (by omega) hq ht halign hmore rfl
          have hsame : ∀ a, a < addr ∨ addr + e.step * flashSeclen ≤ a → d.mem a = c.mem a := by
            intro a ha
            rw [hmem']
            split
            · exact erase_outside ha
            · rfl
          by_cases hflag : e.flag = 0#8 ∨ e.flag &&& flags ≠ 0#8
          · -- a method that is known to work
            have hblank : Blank d.mem addr (e.step * flashSeclen) := by
              rw [hmem', if_pos (hmethod.erases_of_trusted htrusted hflag)]
              exact blank_erase
            refine Erases.of_block hstep hblank hsame ⟨N, ?_⟩ (hrest hquiet' htrusted)
            intro fuel hfuel
            rw [hturn fuel hfuel, if_pos hflag]
          obtain ⟨hverify, hquiet₂, hmem₂⟩ := @blankCheck_spec p d addr (e.step * flashSeclen)
            hquiet' (by omega) (by omega) (by omega)
          by_cases hworks : p.erases e.cmd = true
          · -- the method is tried, and works
            have hblank : Blank d.mem addr (e.step * flashSeclen) := by
              rw [hmem', if_pos hworks]
              exact blank_erase
            refine Erases.of_block hstep (hmem₂ ▸ hblank) (hmem₂ ▸ hsame) ⟨N, ?_⟩
              (hrest hquiet₂ (hmethod.trusted_works htrusted hworks))
            intro fuel hfuel
            rw [hturn fuel hfuel, if_neg hflag]
            exact if_pos (hverify.2 hblank)
          · -- the method is tried, and has no effect
            rw [if_neg hworks] at hmem'
            have hdirty : ¬Blank d.mem addr (e.step * flashSeclen) := by
              rw [hmem']
              intro hb
              refine hnot fun a hlo hhi => hb a hlo ?_
              rw [hseclen] at hhi ⊢
              omega
            obtain ⟨hbroken, hfewer⟩ := hmethod.trusted_broken htrusted fun h0 => hflag (.inl h0)
            refine Erases.of_retry (hmem₂.trans hmem') ⟨N, ?_⟩
              (ih (cnt * 3 + retries (flags ||| e.flag <<< 1)) (by omega) hquiet₂ hbroken haddr hle rfl)
            intro fuel hfuel
            rw [hturn fuel hfuel, if_neg hflag]
            exact if_neg fun hb => hdirty (hverify.1 hb)

end EraseSectors

end Flash
end F32c
