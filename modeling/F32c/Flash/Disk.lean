import F32c.Flash.Chip

/-!
# The flash disk driver

This module embeds `flash_read`, `blank_check`, `busy_wait`, `flash_erase_sectors` and
`flash_write` of `lib/src/fs/diskio_flash.c`.  The functions that wait for the chip take
the number of turns that their loops may make, and return nothing when it does not
suffice.  The buffer is a list, and `*buf++` takes its first byte; addresses are natural
numbers, since those of the disk are below 16 MB.
-/

namespace F32c
namespace Flash

section Driver

abbrev fBer32k : Byte := 0x01#8
abbrev fBer64k : Byte := 0x04#8

/-- `F_BER32K_BROKEN` and `F_BER64K_BROKEN` stand one place above the flags themselves. -/
abbrev fBer32kBroken : Byte := 0x02#8
abbrev fBer64kBroken : Byte := 0x08#8

def flashSeclen : Nat := 4096

/-- What the driver keeps for a disk (`struct flash_priv`). -/
structure FlashPriv where
  offset : Nat
  flags : Byte
  jedId0 : Byte

variable (p : Part)

/-- A command byte and the address that follows it; the lowest byte of an address is zero. -/
def addressed (cmd : Byte) (addr : Nat) : List Byte :=
  [cmd, BitVec.ofNat 8 (addr >>> 16), BitVec.ofNat 8 (addr >>> 8), 0#8]

def flashRead (priv : FlashPriv) (sector count : Nat) (c : Chip) : List Byte × Chip :=
  let addr := (sector + priv.offset) * flashSeclen
  let c := spiSend (spiStartTransaction p c) (addressed cmdFastrd addr ++ [0#8])
  spiBlockIn c (count * flashSeclen)

def busyWait : Nat → Chip → Option Chip
  | 0, _ => none
  | fuel + 1, c =>
    let c := spiSend (spiStartTransaction p c) [cmdRdsr]
    let (b, c) := spiByte c cmdRdsr
    if b &&& 1#8 ≠ 0#8 then busyWait fuel c else some c

/-- The loop of `blank_check`. -/
def blankLoop : Nat → Chip → Bool × Chip
  | 0, c => (true, c)
  | len + 1, c =>
    let (b, c) := spiByte c 0#8
    if b ≠ 0xff#8 then (false, c) else blankLoop len c

def blankCheck (addr len : Nat) (c : Chip) : Bool × Chip :=
  blankLoop len (spiSend (spiStartTransaction p c) (addressed cmdFastrd addr ++ [0#8]))

def writeEnable (c : Chip) : Chip := spiSend (spiStartTransaction p c) [cmdWren]

/-- An erase command, the flag of its method and the number of sectors that it erases. -/
structure EraseCmd where
  cmd : Byte
  flag : Byte
  step : Nat

def eraseCmd (flags : Byte) (addr cnt : Nat) : EraseCmd :=
  if flags &&& fBer64kBroken = 0#8 ∧ addr &&& 0xffff = 0 ∧ 16 ≤ cnt then ⟨cmdBer64k, fBer64k, 16⟩
  else if flags &&& fBer32kBroken = 0#8 ∧ addr &&& 0x7fff = 0 ∧ 8 ≤ cnt then
    ⟨cmdBer32k, fBer32k, 8⟩
  else ⟨cmdSer, 0#8, 1⟩

/-- `flash_erase_sectors`, with the flags of the disk; `retry` is a turn that stays in place. -/
def eraseLoop : Nat → Byte → Nat → Nat → Chip → Option (Byte × Chip)
  | 0, _, _, _, _ => none
  | fuel + 1, flags, addr, cnt, c =>
    if cnt = 0 then some (flags, c)
    else
      let (blank, c) := blankCheck p addr flashSeclen c
      if blank then eraseLoop fuel flags (addr + flashSeclen) (cnt - 1) c
      else do
        let e := eraseCmd flags addr cnt
        let c := spiSend (spiStartTransaction p (writeEnable p c)) (addressed e.cmd addr)
        let c ← busyWait p fuel c
        if e.flag = 0#8 ∨ e.flag &&& flags ≠ 0#8 then
          eraseLoop fuel flags (addr + e.step * flashSeclen) (cnt - e.step) c
        else
          let (works, c) := blankCheck p addr (e.step * flashSeclen) c
          if works then
            eraseLoop fuel (flags ||| e.flag) (addr + e.step * flashSeclen) (cnt - e.step) c
          else eraseLoop fuel (flags ||| e.flag <<< 1) addr cnt c

def flashEraseSectors (fuel : Nat) (flags : Byte) (start cnt : Nat) (c : Chip) :
    Option (Byte × Chip) :=
  eraseLoop p fuel flags (start * flashSeclen) cnt c

/-- The words of a sector in the auto address increment mode, with `in_aai`. -/
def aaiLoop (fuel addr : Nat) : Nat → Bool → List Byte → Chip → Option (Bool × List Byte × Chip)
  | 0, inAai, buf, c => some (inAai, buf, c)
  | words + 1, inAai, buf, c => do
    let cmd := if inAai then [cmdAaiwr] else addressed cmdAaiwr addr
    let c := spiSend (spiStartTransaction p c) (cmd ++ buf.take 2)
    let c ← busyWait p fuel c
    aaiLoop fuel addr words true (buf.drop 2) c

/-- The pages of a sector. -/
def pageLoop (fuel : Nat) : Nat → Nat → List Byte → Chip → Option (Nat × List Byte × Chip)
  | 0, addr, buf, c => some (addr, buf, c)
  | pages + 1, addr, buf, c => do
    let c := writeEnable p c
    let c := spiSend (spiStartTransaction p c) (addressed cmdPagewr addr ++ buf.take 256)
    let c ← busyWait p fuel c
    pageLoop fuel pages (addr + 256) (buf.drop 256) c

/-- The loop of `flash_write` over the sectors. -/
def writeLoop (fuel : Nat) (mfgId : Byte) : Nat → Nat → Bool → List Byte → Chip → Option Chip
  | 0, _, _, _, c => some c
  | count + 1, addr, inAai, buf, c =>
    if mfgId = mfrMicrochip then do
      let (inAai, buf, c) ← aaiLoop p fuel addr (flashSeclen / 2) inAai buf (writeEnable p c)
      writeLoop fuel mfgId count addr inAai buf c
    else do
      let (addr, buf, c) ← pageLoop p fuel (flashSeclen / 256) addr buf c
      writeLoop fuel mfgId count addr inAai buf c

def flashWrite (fuel : Nat) (priv : FlashPriv) (buf : List Byte) (sector count : Nat) (c : Chip) :
    Option (FlashPriv × Chip) := do
  let start := sector + priv.offset
  let (flags, c) ← flashEraseSectors p fuel priv.flags start count c
  let priv := { priv with flags := flags }
  let c ← writeLoop p fuel priv.jedId0 count (start * flashSeclen) false buf c
  let c ← busyWait p fuel (spiSend (spiStartTransaction p c) [cmdWrdi])
  pure (priv, c)

end Driver

end Flash
end F32c
