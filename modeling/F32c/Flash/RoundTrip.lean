import F32c.Flash.Erase

/-!
# Writing and reading back

Both ways of programming a sector clear the bits of consecutive bytes, page by page or
word by word, so after the erase loop the disk reads back what was written.  The word
program of one manufacturer stays in its mode from the first word on, where the write
enable command before the next sector is ignored.

The flags of the block erases are remembered between calls.  A flag that promises what
the chip does not do would spare the check that follows an erase, so the round trip needs
flags that can be trusted; those that the driver leaves behind can.
-/

namespace F32c
namespace Flash

open Nor

variable {p : Part} {c : Chip} {addr : Nat} {buf : List Byte}

section Pages

/-- A page program of a whole page. -/
theorem addressed_pagewr {data : List Byte} (hid : p.mfgId ≠ mfrMicrochip) (hlow : addr % 256 = 0)
    (hlen : data.length ≤ 256) :
    (c.addressed p cmdPagewr addr data).mem = program c.mem addr data := by
  rw [Chip.addressed, if_pos ⟨rfl, hid⟩, hlow, Nat.div_mul_cancel (Nat.dvd_of_mod_eq_zero hlow)]
  exact programPage_eq (by omega)

/-- The pages are programmed one behind the other. -/
theorem pageLoop_spec {pages : Nat} (h : Quiet c) (hid : p.mfgId ≠ mfrMicrochip)
    (hlow : addr % 256 = 0) (hle : addr + pages * 256 ≤ 2 ^ 24) (hlen : pages * 256 ≤ buf.length) :
    ∃ N d, (∀ fuel, N ≤ fuel →
        pageLoop p fuel pages addr buf c = some (addr + pages * 256, buf.drop (pages * 256), d)) ∧
      Quiet d ∧ d.mem = program c.mem addr (buf.take (pages * 256)) := by
  induction pages generalizing addr buf c with
  | zero =>
      exact ⟨0, c, fun _ _ => by simp [pageLoop], h, by simp [program]⟩
  | succ pages ih =>
      obtain ⟨N, d, hwait, hquiet, hmem⟩ := @busyWait_enabled p c addr (buf.take 256) cmdPagewr h
        (by decide) (by decide) hlow (by omega)
      rw [addressed_pagewr hid hlow (List.length_take_le _ _)] at hmem
      have hrest : pages * 256 ≤ (buf.drop 256).length := by
        rw [List.length_drop]
        exact Nat.le_sub_of_add_le (by omega)
      obtain ⟨M, d', hloop, hquiet', hmem'⟩ := @ih d (addr + 256) (buf.drop 256) hquiet (by omega)
        (by omega) hrest
      have hlast : addr + 256 + pages * 256 = addr + (pages + 1) * 256 := by omega
      have hcount : 256 + pages * 256 = (pages + 1) * 256 := by omega
      rw [hlast, List.drop_drop, hcount] at hloop
      refine ⟨N + M, d', ?_, hquiet', ?_⟩
      · intro fuel hfuel
        simp only [pageLoop, hwait fuel (by omega), Option.bind_eq_bind, Option.bind_some]
        exact hloop fuel (by omega)
      · have hpage : (buf.take 256).length = 256 := by
          simp only [List.length_take]
          omega
        rw [hmem', hmem, ← hcount, List.take_add, program_append, hpage]

end Pages

section Words

variable {a : Nat} {inAai : Bool}

/-- After the end of its transaction the chip takes a word for the address `a`. -/
structure AaiReady (p : Part) (inAai : Bool) (a : Nat) (c : Chip) : Prop where
  busy : (c.execute p).busy = 0
  wel : (c.execute p).wel = true
  aai : (c.execute p).aai = if inAai then some a else none

/-- The first word of the auto address increment mode. -/
theorem execute_aaiwr {data : List Byte} (hid : p.mfgId = mfrMicrochip) (hbusy : c.busy = 0)
    (hwel : c.wel = true) (haai : c.aai = none) (hlow : addr % 256 = 0) (hlt : addr < 2 ^ 24)
    (hlen : data.length = 2) (hshift : c.shift = addressed cmdAaiwr addr ++ data) :
    c.execute p =
      { c.operate p (program c.mem addr data) with aai := some (addr + 2) } := by
  rw [execute_addressed hbusy haai hwel hshift, address_addressed hlow hlt, Chip.addressed,
    if_neg fun h => absurd h.1 (by decide), if_pos ⟨rfl, hid, hlen⟩]
  rfl

/-- A word behind the first one. -/
theorem execute_aaiwr_next {data : List Byte} (hbusy : c.busy = 0) (haai : c.aai = some addr)
    (hlen : data.length = 2) (hshift : c.shift = cmdAaiwr :: data) :
    c.execute p =
      { c.operate p (program c.mem addr data) with aai := some (addr + 2) } := by
  rw [Chip.execute, hshift]
  dsimp only
  rw [if_neg (by simp [hbusy]), haai]
  dsimp only
  rw [Chip.aaiCommand, if_neg (by decide), if_pos ⟨rfl, hlen⟩]

/-- A word, with an address in front of the first one. -/
theorem AaiReady.word {data : List Byte} (h : AaiReady p inAai a c) (hid : p.mfgId = mfrMicrochip)
    (haddr : inAai = false → addr = a ∧ addr % 256 = 0 ∧ addr < 2 ^ 24)
    (hlen : data.length = 2) :
    ∃ N d, (∀ fuel, N ≤ fuel → busyWait p fuel (spiSend (spiStartTransaction p c)
        ((if inAai then [cmdAaiwr] else addressed cmdAaiwr addr) ++ data)) = some d) ∧
      AaiReady p true (a + 2) d ∧ (d.execute p).mem = program (c.execute p).mem a data := by
  obtain ⟨cmd, hcmd⟩ : ∃ cmd, (if inAai then [cmdAaiwr] else addressed cmdAaiwr addr) = cmd :=
    ⟨_, rfl⟩
  have hexec : Chip.execute p { c.execute p with shift := cmd ++ data } =
      { Chip.operate p { c.execute p with shift := cmd ++ data }
          (program (c.execute p).mem a data) with aai := some (a + 2) } := by
    have haai := h.aai
    subst hcmd
    cases inAai with
    | true =>
        exact execute_aaiwr_next h.busy haai hlen rfl
    | false =>
        obtain ⟨rfl, hlow, hlt⟩ := haddr rfl
        exact execute_aaiwr hid h.busy h.wel haai hlow hlt hlen rfl
  have hsend : spiSend (spiStartTransaction p c) (cmd ++ data) =
      { c.execute p with shift := cmd ++ data } := by
    rw [spiStartTransaction, spiSend_eq, List.nil_append]
    subst hcmd
    cases inAai <;> simp +decide [addressed]
  rw [hcmd, hsend]
  refine ⟨_, _, fun fuel hfuel => busyWait_eq (Nat.lt_of_succ_le hfuel), ?_, ?_⟩
  · constructor
    all_goals rw [execute_of_harmless harmless_rdsr, hexec]
    · exact h.wel
    · rfl
  · rw [execute_of_harmless harmless_rdsr, hexec]
    rfl

/-- The words of a sector. -/
theorem aaiLoop_spec {words : Nat} (h : AaiReady p inAai a c) (hid : p.mfgId = mfrMicrochip)
    (haddr : inAai = false → addr = a ∧ addr % 256 = 0 ∧ addr < 2 ^ 24)
    (hlen : words * 2 ≤ buf.length) :
    ∃ N d, (∀ fuel, N ≤ fuel → aaiLoop p fuel addr words inAai buf c =
        some (inAai || words != 0, buf.drop (words * 2), d)) ∧
      AaiReady p (inAai || words != 0) (a + words * 2) d ∧
      (d.execute p).mem = program (c.execute p).mem a (buf.take (words * 2)) := by
  induction words generalizing a inAai buf c with
  | zero =>
      exact ⟨0, c, fun _ _ => by simp [aaiLoop], by simpa using h, by simp [program]⟩
  | succ words ih =>
      have hword : (buf.take 2).length = 2 := by
        simp only [List.length_take]
        omega
      obtain ⟨N, d, hwait, hready, hmem⟩ := h.word hid haddr hword
      obtain ⟨M, d', hloop, hready', hmem'⟩ := @ih d (buf.drop 2) (a + 2) true hready (by simp)
        (by simp only [List.length_drop]; omega)
      have hlast : a + 2 + words * 2 = a + (words + 1) * 2 := by omega
      have hcount : 2 + words * 2 = (words + 1) * 2 := by omega
      have hmode : (inAai || words + 1 != 0) = true := by simp
      rw [Bool.true_or, List.drop_drop, hcount] at hloop
      rw [Bool.true_or, hlast] at hready'
      rw [hmode]
      refine ⟨N + M, d', ?_, hready', ?_⟩
      · intro fuel hfuel
        simp only [aaiLoop, hwait fuel (by omega), Option.bind_eq_bind, Option.bind_some]
        exact hloop fuel (by omega)
      · rw [hmem', hmem, ← hcount, List.take_add, program_append, hword]

end Words

section Sectors

variable {a count : Nat} {inAai : Bool}

theorem writeEnable_eq : writeEnable p c = { c.execute p with shift := [cmdWren] } := by
  rw [writeEnable, spiStartTransaction, spiSend_eq (by simp +decide), List.nil_append]

/-- `WREN` leaves the memory alone, and the mode as well when there is one. -/
theorem execute_writeEnable (h : (c.execute p).busy = 0) :
    (writeEnable p c).execute p =
      { c.execute p with
        wel := (c.execute p).wel || (c.execute p).aai.isNone
        shift := [cmdWren] } := by
  rw [writeEnable_eq]
  generalize c.execute p = d at *
  cases haai : d.aai with
  | none =>
      simp [Chip.execute, h, haai, Chip.command]
  | some addr =>
      simp +decide [Chip.execute, h, haai, Chip.aaiCommand]

theorem aaiReady_first (h : Quiet c) : AaiReady p false a (writeEnable p c) := by
  have hexec := execute_of_harmless (p := p) h.shift
  have heq := execute_writeEnable (p := p) (hexec ▸ h.busy)
  rw [hexec] at heq
  exact ⟨heq ▸ h.busy, by rw [heq]; simp [h.aai], by rw [heq]; exact h.aai⟩

theorem AaiReady.writeEnable (h : AaiReady p true a c) :
    AaiReady p true a (writeEnable p c) := by
  have heq := execute_writeEnable h.busy
  exact ⟨heq ▸ h.busy, by rw [heq]; simp [h.wel], by rw [heq]; exact h.aai⟩

/-- The sectors in the auto address increment mode, which lasts from the first word on. -/
theorem writeLoop_microchip (hbusy : (c.execute p).busy = 0)
    (h : AaiReady p inAai a (Flash.writeEnable p c)) (hid : p.mfgId = mfrMicrochip)
    (haddr : count ≠ 0 → inAai = false → addr = a ∧ addr % 256 = 0 ∧ addr < 2 ^ 24)
    (hlen : count * flashSeclen ≤ buf.length) :
    ∃ N d, (∀ fuel, N ≤ fuel →
        writeLoop p fuel mfrMicrochip count addr inAai buf c = some d) ∧
      (d.execute p).busy = 0 ∧
      (d.execute p).mem = program (c.execute p).mem a (buf.take (count * flashSeclen)) := by
  induction count generalizing a inAai buf c with
  | zero =>
      exact ⟨0, c, fun _ _ => rfl, hbusy, by simp [program]⟩
  | succ count ih =>
      have hwords : flashSeclen / 2 * 2 = flashSeclen := rfl
      have hmode : (inAai || flashSeclen / 2 != 0) = true := by simp +decide
      have hcount : flashSeclen + count * flashSeclen = (count + 1) * flashSeclen := by
        rw [Nat.add_comm, Nat.succ_mul]
      obtain ⟨N, d, hloop, hready, hmem⟩ := aaiLoop_spec h hid (haddr (by omega))
        (show flashSeclen / 2 * 2 ≤ buf.length by omega)
      rw [hmode, hwords] at hloop hready
      rw [hwords, execute_writeEnable hbusy] at hmem
      obtain ⟨M, d', hloop', hbusy', hmem'⟩ := @ih d (buf.drop flashSeclen) (a + flashSeclen) true
        hready.busy hready.writeEnable (by simp) (by simp only [List.length_drop]; omega)
      refine ⟨N + M, d', ?_, hbusy', ?_⟩
      · intro fuel hfuel
        rw [writeLoop, if_pos rfl, hloop fuel (by omega)]
        exact hloop' fuel (by omega)
      · have hsec : (buf.take flashSeclen).length = flashSeclen := by
          simp only [List.length_take]
          omega
        rw [hmem', hmem, ← hcount, List.take_add, program_append, hsec]

/-- The sectors of a part with page program. -/
theorem writeLoop_pages {mfgId : Byte} (h : Quiet c) (hid : p.mfgId ≠ mfrMicrochip)
    (hmfg : mfgId ≠ mfrMicrochip) (haddr : addr % 4096 = 0)
    (hle : addr + count * flashSeclen ≤ 2 ^ 24) (hlen : count * flashSeclen ≤ buf.length) :
    ∃ N d, (∀ fuel, N ≤ fuel → writeLoop p fuel mfgId count addr inAai buf c = some d) ∧
      Quiet d ∧ d.mem = program c.mem addr (buf.take (count * flashSeclen)) := by
  induction count generalizing addr buf c with
  | zero =>
      exact ⟨0, c, fun _ _ => rfl, h, by simp [program]⟩
  | succ count ih =>
      have hseclen : flashSeclen = 4096 := rfl
      have hpages : flashSeclen / 256 * 256 = flashSeclen := rfl
      have hcount : flashSeclen + count * flashSeclen = (count + 1) * flashSeclen := by
        rw [Nat.add_comm, Nat.succ_mul]
      rw [← hcount] at hle hlen
      obtain ⟨N, d, hloop, hquiet, hmem⟩ := @pageLoop_spec p c addr buf (flashSeclen / 256) h hid
        (by omega) (by simp only [hpages]; omega) (by simp only [hpages]; omega)
      rw [hpages] at hloop hmem
      have hrest : count * flashSeclen ≤ (buf.drop flashSeclen).length := by
        rw [List.length_drop]
        exact Nat.le_sub_of_add_le (by omega)
      obtain ⟨M, d', hloop', hquiet', hmem'⟩ := @ih d (addr + flashSeclen) (buf.drop flashSeclen)
        hquiet (by omega) (by omega) hrest
      refine ⟨N + M, d', ?_, hquiet', ?_⟩
      · intro fuel hfuel
        rw [writeLoop, if_neg hmfg, hloop fuel (by omega)]
        exact hloop' fuel (by omega)
      · have hsec : (buf.take flashSeclen).length = flashSeclen := by
          simp only [List.length_take]
          omega
        rw [hmem', hmem, ← hcount, List.take_add, program_append, hsec]

/-- The loop over the sectors programs the range of the buffer, in both modes. -/
theorem writeLoop_spec (h : Quiet c) (haddr : addr % 4096 = 0)
    (hle : addr + count * flashSeclen ≤ 2 ^ 24) (hlen : buf.length = count * flashSeclen) :
    ∃ N d, (∀ fuel, N ≤ fuel → writeLoop p fuel p.mfgId count addr false buf c = some d) ∧
      (d.execute p).busy = 0 ∧ (d.execute p).mem = program c.mem addr buf := by
  have hseclen : flashSeclen = 4096 := rfl
  have hexec := execute_of_harmless (p := p) h.shift
  have htake : buf.take (count * flashSeclen) = buf := List.take_of_length_le (Nat.le_of_eq hlen)
  by_cases hid : p.mfgId = mfrMicrochip
  · obtain ⟨N, d, hloop, hbusy, hmem⟩ := @writeLoop_microchip p c addr buf addr count false
      (by rw [hexec]; exact h.busy) (aaiReady_first h) hid
      (fun hcount _ => ⟨rfl, by omega, by rw [hseclen] at hle; omega⟩) (Nat.le_of_eq hlen.symm)
    rw [htake, hexec] at hmem
    exact ⟨N, d, by rwa [hid], hbusy, hmem⟩
  · obtain ⟨N, d, hloop, hquiet, hmem⟩ := @writeLoop_pages p c addr buf count false p.mfgId h hid hid
      haddr hle (Nat.le_of_eq hlen.symm)
    have hexec' := execute_of_harmless (p := p) hquiet.shift
    rw [htake] at hmem
    exact ⟨N, d, hloop, by rw [hexec']; exact hquiet.busy, by rw [hexec', hmem]⟩

/-- `WRDI` ends the auto address increment mode. -/
theorem writeDisable_spec (h : (c.execute p).busy = 0) :
    ∃ N d, (∀ fuel, N ≤ fuel →
        busyWait p fuel (spiSend (spiStartTransaction p c) [cmdWrdi]) = some d) ∧
      Quiet d ∧ d.mem = (c.execute p).mem := by
  have hsend : spiSend (spiStartTransaction p c) [cmdWrdi] =
      { c.execute p with shift := [cmdWrdi] } := by
    rw [spiStartTransaction, spiSend_eq (by simp +decide), List.nil_append]
  have hexec : Chip.execute p { c.execute p with shift := [cmdWrdi] } =
      { c.execute p with
        wel := false
        aai := none
        shift := [cmdWrdi] } := by
    generalize c.execute p = d at *
    cases haai : d.aai with
    | none =>
        simp +decide [Chip.execute, h, haai, Chip.command]
    | some addr =>
        simp [Chip.execute, h, haai, Chip.aaiCommand]
  rw [hsend]
  refine ⟨_, _, fun fuel hfuel => busyWait_eq (Nat.lt_of_succ_le hfuel), ⟨rfl, ?_, harmless_rdsr⟩, ?_⟩
  · rw [hexec]
  · rw [hexec]

end Sectors

section Disk

variable {priv : FlashPriv} {sector count : Nat}

theorem flashRead_spec (h : Quiet c)
    (hle : (sector + priv.offset) * flashSeclen + count * flashSeclen ≤ 2 ^ 24) :
    (flashRead p priv sector count c).1 =
      read c.mem ((sector + priv.offset) * flashSeclen) (count * flashSeclen) := by
  cases count with
  | zero =>
      rw [Nat.zero_mul]
      rfl
  | succ count =>
      have hseclen : flashSeclen = 4096 := rfl
      have hlt : (sector + priv.offset) * flashSeclen < 2 ^ 24 := by
        rw [Nat.succ_mul] at hle
        omega
      obtain ⟨hreading, hmem⟩ := @reading_start p c ((sector + priv.offset) * flashSeclen) h
        (by rw [hseclen]; omega) hlt
      have hbytes := (spiBlockIn_spec hreading hle).1
      rw [hmem] at hbytes
      exact hbytes

/--
On a disk whose flags can be trusted `flash_write` returns, `flash_read` then reads what
was written, and the rest of the chip keeps its contents; so do the flags their meaning.
-/
theorem flash_round_trip (p : Part) (priv : FlashPriv) (c : Chip) (buf : List Byte)
    (sector count : Nat) (hquiet : Quiet c) (hid : priv.jedId0 = p.mfgId)
    (htrusted : Trusted p priv.flags) (hlen : buf.length = count * flashSeclen)
    (hle : (sector + priv.offset) * flashSeclen + count * flashSeclen ≤ 2 ^ 24) :
    ∃ priv' c' N, (∀ fuel, N ≤ fuel →
        flashWrite p fuel priv buf sector count c = some (priv', c')) ∧
      (flashRead p priv' sector count c').1 = buf ∧
      (∀ a, a < (sector + priv.offset) * flashSeclen ∨
          (sector + priv.offset) * flashSeclen + count * flashSeclen ≤ a → c'.mem a = c.mem a) ∧
      Quiet c' ∧ Trusted p priv'.flags := by
  have halign : (sector + priv.offset) * flashSeclen % 4096 = 0 := Nat.mul_mod_left _ _
  obtain ⟨N₁, flags, c₁, herase, hquiet₁, htrusted', hblank, hsame⟩ :=
    eraseLoop_spec hquiet htrusted halign hle
  obtain ⟨N₂, c₂, hwrite, hbusy, hmem⟩ := writeLoop_spec (p := p) hquiet₁ halign hle hlen
  obtain ⟨N₃, c₃, hwait, hquiet₃, hmem₃⟩ := writeDisable_spec hbusy
  rw [hmem] at hmem₃
  refine ⟨{ priv with flags := flags }, c₃, N₁ + N₂ + N₃, ?_, ?_, ?_, hquiet₃, htrusted'⟩
  · intro fuel hfuel
    simp only [flashWrite, flashEraseSectors, herase fuel (by omega), hid,
      hwrite fuel (by omega), hwait fuel (by omega), Option.bind_eq_bind, Option.bind_some,
      Option.pure_def]
  · rw [@flashRead_spec p c₃ { priv with flags := flags } sector count hquiet₃ hle, hmem₃, ← hlen]
    rw [← hlen] at hblank
    exact read_program hblank
  · intro a ha
    have hout := hsame a ha
    rw [← hlen] at ha
    rw [hmem₃, program_outside ha, hout]

/-- A part with page program and without block erases. -/
def sectorPart : Part := ⟨0xef#8, false, false, fun _ => 3⟩

/-- A chip with all bits programmed. -/
def clearedChip : Chip := ⟨fun _ => 0#8, false, none, 0, [], 0⟩

theorem quiet_clearedChip : Quiet clearedChip :=
  ⟨rfl, rfl, fun _ h => by simp [clearedChip] at h⟩

/-- A sector of a part that is used for the first time. -/
theorem flash_round_trip_sector :
    ∃ priv' c' N, (∀ fuel, N ≤ fuel → flashWrite sectorPart fuel ⟨0, 0#8, 0xef#8⟩
        (List.replicate flashSeclen 0xa5#8) 7 1 clearedChip = some (priv', c')) ∧
      (flashRead sectorPart priv' 7 1 c').1 = List.replicate flashSeclen 0xa5#8 ∧
      (∀ a, a < 7 * flashSeclen ∨ 7 * flashSeclen + 1 * flashSeclen ≤ a → c'.mem a = 0#8) ∧
      Quiet c' ∧ Trusted sectorPart priv'.flags :=
  flash_round_trip sectorPart ⟨0, 0#8, 0xef#8⟩ clearedChip (List.replicate flashSeclen 0xa5#8) 7 1
    quiet_clearedChip rfl ⟨fun h => absurd rfl h, fun h => absurd rfl h⟩
    (by rw [List.length_replicate, Nat.one_mul]) (by decide)

/-- With the flag of the larger block erase set, the erase loop does nothing on this part. -/
theorem eraseLoop_flagged :
    ∃ N d, (∀ fuel, N ≤ fuel →
        eraseLoop sectorPart fuel fBer64k 0 16 clearedChip = some (fBer64k, d)) ∧
      Quiet d ∧ d.mem = clearedChip.mem := by
  have hseclen : flashSeclen = 4096 := rfl
  obtain ⟨hcheck, hquiet, hmem⟩ := @blankCheck_spec sectorPart clearedChip 0 flashSeclen
    quiet_clearedChip (by omega) (by omega) (by omega)
  rcases hres : blankCheck sectorPart 0 flashSeclen clearedChip with ⟨blank, c₁⟩
  rw [hres] at hcheck hquiet hmem
  have hdirty : blank = false := by
    rw [Bool.eq_false_iff]
    intro hb
    exact absurd (hcheck.1 hb 0 (Nat.le_refl 0) (by omega)) (by decide)
  subst hdirty
  have he : eraseCmd fBer64k 0 16 = ⟨cmdBer64k, fBer64k, 16⟩ := rfl
  have hmethod := @eraseCmd_method fBer64k 0 16
  rw [he] at hmethod
  obtain ⟨N, d, hwait, hquiet', hmem'⟩ := @Method.busyWait sectorPart c₁ _ _ _ _ hmethod hquiet
    (by omega) (by omega)
  refine ⟨N + 2, d, ?_, hquiet', hmem'.trans hmem⟩
  intro fuel hfuel
  obtain ⟨fuel, rfl⟩ : ∃ f, fuel = f + 1 + 1 := ⟨fuel - 2, by omega⟩
  rw [eraseLoop_erase (by omega) hres he (hwait _ (by omega)), if_pos (by decide), eraseLoop]
  exact if_pos (by decide)

/-- A block erase that is flagged, and that the chip does not have, is not noticed. -/
theorem flagged_block_not_erased :
    Quiet clearedChip ∧ ∃ priv' c' N, (∀ fuel, N ≤ fuel →
        flashWrite sectorPart fuel ⟨0, fBer64k, 0xef#8⟩ (List.replicate (16 * flashSeclen) 0xff#8) 0 16
          clearedChip = some (priv', c')) ∧
      (flashRead sectorPart priv' 0 16 c').1 ≠ List.replicate (16 * flashSeclen) 0xff#8 := by
  have hseclen : flashSeclen = 4096 := rfl
  obtain ⟨N₁, c₁, herase, hquiet₁, hmem₁⟩ := eraseLoop_flagged
  obtain ⟨N₂, c₂, hwrite, hbusy, hmem⟩ := @writeLoop_spec sectorPart c₁ 0
    (List.replicate (16 * flashSeclen) 0xff#8) 16 hquiet₁ rfl (by omega) List.length_replicate
  obtain ⟨N₃, c₃, hwait, hquiet₃, hmem₃⟩ := writeDisable_spec hbusy
  rw [hmem, hmem₁] at hmem₃
  refine ⟨quiet_clearedChip, ⟨0, fBer64k, 0xef#8⟩, c₃, N₁ + N₂ + N₃, ?_, ?_⟩
  · intro fuel hfuel
    have hwrite' := hwrite fuel (by omega)
    change writeLoop sectorPart fuel 0xef#8 16 0 false _ c₁ = _ at hwrite'
    simp only [flashWrite, flashEraseSectors, Nat.zero_mul, Nat.add_zero, herase fuel (by omega),
      hwrite', hwait fuel (by omega), Option.bind_eq_bind, Option.bind_some, Option.pure_def]
  · rw [@flashRead_spec sectorPart c₃ ⟨0, fBer64k, 0xef#8⟩ 0 16 hquiet₃ (by decide), hmem₃]
    intro hread
    -- the first byte could not be programmed to ones
    have hfirst := congrArg List.head? hread
    rw [head?_read (by decide), @program_zero 8 clearedChip.mem _ _ _ rfl, List.head?_replicate,
      if_neg (by decide)] at hfirst
    simp at hfirst

end Disk

end Flash
end F32c
