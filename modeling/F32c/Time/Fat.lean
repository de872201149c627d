import F32c.Time.Calendar

/-!
# Timestamps of a FAT file system

`get_fattime` packs the current time into a double word, which the file system stores in the
entry of a file; `stat` reads the two halves of it back and has `timegm` take them to a time.
-/

namespace F32c
namespace Time

abbrev Byte := BitVec 8
abbrev WORD := BitVec 16
abbrev DWORD := BitVec 32

section Model

/-- The double word into which `get_fattime` packs a date. -/
def packTm (tm : Tm) : DWORD :=
  BitVec.ofInt 32 (tm.tm_year - 80) <<< 25 ||| BitVec.ofInt 32 (tm.tm_mon + 1) <<< 21 |||
    BitVec.ofInt 32 tm.tm_mday <<< 16 ||| BitVec.ofInt 32 tm.tm_hour <<< 11 |||
    BitVec.ofInt 32 tm.tm_min <<< 5 ||| (BitVec.ofInt 32 tm.tm_sec).sshiftRight 1

/-- `get_fattime`, where `t` is what `time` returns. -/
def get_fattime (fuel : Nat) (t : Int) : Option DWORD := do
  let tm ← gmtime_r fuel t
  return packTm tm

/-- `st_32`, at an offset in the entry of a file. -/
def st_32 (dir : Nat → Byte) (ptr : Nat) (val : DWORD) : Nat → Byte := fun i =>
  if i = ptr then val.setWidth 8
  else if i = ptr + 1 then (val >>> 8).setWidth 8
  else if i = ptr + 2 then (val >>> 16).setWidth 8
  else if i = ptr + 3 then (val >>> 24).setWidth 8
  else dir i

/-- `ld_16` -/
def ld_16 (dir : Nat → Byte) (ptr : Nat) : WORD :=
  (dir (ptr + 1)).setWidth 16 <<< 8 ||| (dir ptr).setWidth 16

/-- `ld_32` -/
def ld_32 (dir : Nat → Byte) (ptr : Nat) : DWORD :=
  (dir (ptr + 3)).setWidth 32 <<< 24 ||| (dir (ptr + 2)).setWidth 32 <<< 16 |||
    (dir (ptr + 1)).setWidth 32 <<< 8 ||| (dir ptr).setWidth 32

def DIR_Attr : Nat := 11
def DIR_ModTime : Nat := 22
def DIR_FileSize : Nat := 28

/-- `FILINFO`, the fields that `stat` reads. -/
structure Filinfo where
  fsize : DWORD
  fdate : WORD
  ftime : WORD
  fattrib : Byte

/-- `get_fileinfo` -/
def get_fileinfo (dir : Nat → Byte) : Filinfo where
  fattrib := dir DIR_Attr &&& 0x3f
  fsize := ld_32 dir DIR_FileSize
  ftime := ld_16 dir (DIR_ModTime + 0)
  fdate := ld_16 dir (DIR_ModTime + 2)

/-- `struct stat`, the fields that are set. -/
structure Stat where
  st_size : Nat
  st_mtime : Int
  st_atime : Int
  st_ctime : Int
  st_mode : WORD

/-- The date that `stat` decodes; `tm` is what was on the stack before. -/
def unpackTm (tm : Tm) (fno : Filinfo) : Tm :=
  { tm with
    tm_sec := (fno.ftime &&& 0x1f).toNat * 2
    tm_min := (fno.ftime >>> 5 &&& 0x3f).toNat
    tm_hour := (fno.ftime >>> 11).toNat
    tm_mday := (fno.fdate &&& 0x1f).toNat
    tm_mon := (fno.fdate >>> 5 &&& 0xf).toNat - 1
    tm_year := (fno.fdate >>> 9).toNat + 80 }

/-- The mode that `stat` gives for the attributes of a file. -/
def statMode (fattrib : Byte) : WORD :=
  (if fattrib &&& 0x10 ≠ 0 then 0o040000 else 0) ||| 0o400 ||| 0o040 ||| 0o004 |||
    (if fattrib &&& 0x01 = 0 then 0o200 ||| 0o020 ||| 0o002 else 0) |||
    (if fattrib &&& 0x04 ≠ 0 then 0o100 ||| 0o010 ||| 0o001 else 0)

/-- `stat`, where `res` and `fno` are what `f_stat` gives; the result with what is stored. -/
def stat (fuel : Nat) (res : Int) (fno : Filinfo) (tm : Tm) (sb : Stat) : Option (Int × Stat) :=
  if res ≠ 0 then some (res, sb)
  else do
    let st_mtime ← timegm fuel (unpackTm tm fno)
    return (0, {
      st_size := fno.fsize.toNat
      st_mtime := st_mtime
      st_atime := st_mtime
      st_ctime := st_mtime
      st_mode := statMode fno.fattrib })

end Model

section Halves

theorem ld_16_low (dir : Nat → Byte) (d : DWORD) :
    ld_16 (st_32 dir DIR_ModTime d) (DIR_ModTime + 0) = d.extractLsb' 0 16 := by
  apply BitVec.eq_of_getLsbD_eq
  intro i hi
  interval_cases i <;> simp [ld_16, st_32, DIR_ModTime]

theorem ld_16_high (dir : Nat → Byte) (d : DWORD) :
    ld_16 (st_32 dir DIR_ModTime d) (DIR_ModTime + 2) = d.extractLsb' 16 16 := by
  apply BitVec.eq_of_getLsbD_eq
  intro i hi
  interval_cases i <;> simp [ld_16, st_32, DIR_ModTime]

end Halves

section Fields

/-- Fields that fit side by side in a double word. -/
def fieldsOf (year : BitVec 7) (mon : BitVec 4) (mday hour : BitVec 5) (min : BitVec 6)
    (sec : BitVec 5) : DWORD :=
  year.setWidth 32 <<< 25 ||| mon.setWidth 32 <<< 21 ||| mday.setWidth 32 <<< 16 |||
    hour.setWidth 32 <<< 11 ||| min.setWidth 32 <<< 5 ||| sec.setWidth 32

variable (year : BitVec 7) (mon : BitVec 4) (mday hour : BitVec 5) (min : BitVec 6)
  (sec : BitVec 5)

theorem year_fieldsOf :
    (fieldsOf year mon mday hour min sec).extractLsb' 16 16 >>> 9 = year.setWidth 16 := by
  apply BitVec.eq_of_getLsbD_eq
  intro i hi
  interval_cases i <;> simp [fieldsOf]

theorem mon_fieldsOf :
    (fieldsOf year mon mday hour min sec).extractLsb' 16 16 >>> 5 &&& 0xf = mon.setWidth 16 := by
  apply BitVec.eq_of_getLsbD_eq
  intro i hi
  interval_cases i <;> simp [fieldsOf]

theorem mday_fieldsOf :
    (fieldsOf year mon mday hour min sec).extractLsb' 16 16 &&& 0x1f = mday.setWidth 16 := by
  apply BitVec.eq_of_getLsbD_eq
  intro i hi
  interval_cases i <;> simp [fieldsOf]

theorem hour_fieldsOf :
    (fieldsOf year mon mday hour min sec).extractLsb' 0 16 >>> 11 = hour.setWidth 16 := by
  apply BitVec.eq_of_getLsbD_eq
  intro i hi
  interval_cases i <;> simp [fieldsOf]

theorem min_fieldsOf :
    (fieldsOf year mon mday hour min sec).extractLsb' 0 16 >>> 5 &&& 0x3f = min.setWidth 16 := by
  apply BitVec.eq_of_getLsbD_eq
  intro i hi
  interval_cases i <;> simp [fieldsOf]

theorem sec_fieldsOf :
    (fieldsOf year mon mday hour min sec).extractLsb' 0 16 &&& 0x1f = sec.setWidth 16 := by
  apply BitVec.eq_of_getLsbD_eq
  intro i hi
  interval_cases i <;> simp [fieldsOf]

end Fields

section RoundTrip

/-- A number that fits in a field is the field, whatever the width it is put in. -/
theorem ofInt_eq_field
    {x : Int} (w : Nat) (h0 : 0 ≤ x) (h : x < 2 ^ w) (hw : w ≤ 32) :
    BitVec.ofInt 32 x = (BitVec.ofNat w x.toNat).setWidth 32 := by
  obtain ⟨n, rfl⟩ := Int.eq_ofNat_of_zero_le h0
  have hn : n < 2 ^ w := by exact_mod_cast h
  have hw' : 2 ^ w ≤ 2 ^ 32 := Nat.pow_le_pow_right (by decide) hw
  apply BitVec.eq_of_toNat_eq
  simp only [BitVec.ofInt_natCast, BitVec.toNat_ofNat, BitVec.toNat_setWidth, Int.toNat_natCast]
  rw [Nat.mod_eq_of_lt hn]

theorem toNat_field
    {x : Int} (w : Nat) (h0 : 0 ≤ x) (h : x < 2 ^ w) (hw : w ≤ 16) :
    (((BitVec.ofNat w x.toNat).setWidth 16).toNat : Int) = x := by
  obtain ⟨n, rfl⟩ := Int.eq_ofNat_of_zero_le h0
  have hn : n < 2 ^ w := by exact_mod_cast h
  have hw' : 2 ^ w ≤ 2 ^ 16 := Nat.pow_le_pow_right (by decide) hw
  rw [BitVec.toNat_setWidth, BitVec.toNat_ofNat, Int.toNat_natCast, Nat.mod_eq_of_lt hn,
    Nat.mod_eq_of_lt (by omega)]

theorem half_eq
    {x : Int} (h0 : 0 ≤ x) (h : x < 64) :
    (BitVec.ofInt 32 x).sshiftRight 1 = BitVec.ofInt 32 (x / 2) := by
  obtain ⟨n, rfl⟩ := Int.eq_ofNat_of_zero_le h0
  have hn : n < 64 := by exact_mod_cast h
  interval_cases n <;> rfl

/-- The years that a timestamp can name. -/
def Tm.InRange (tm : Tm) : Prop := 80 ≤ tm.tm_year ∧ tm.tm_year ≤ 207

theorem packTm_eq
    {tm : Tm} (hvalid : tm.Valid) (hrange : tm.InRange) :
    packTm tm = fieldsOf (BitVec.ofNat 7 (tm.tm_year - 80).toNat)
      (BitVec.ofNat 4 (tm.tm_mon + 1).toNat) (BitVec.ofNat 5 tm.tm_mday.toNat)
      (BitVec.ofNat 5 tm.tm_hour.toNat) (BitVec.ofNat 6 tm.tm_min.toNat)
      (BitVec.ofNat 5 (tm.tm_sec / 2).toNat) := by
  have hmday := hvalid.mday.2.trans (mon_lengths_le _ _)
  rcases hvalid with ⟨-, hmon, ⟨hmday0, -⟩, hhour, hmin, hsec⟩
  rcases hrange with ⟨hlow, hhigh⟩
  rw [packTm, half_eq hsec.1 (by omega), ofInt_eq_field 7 (by omega) (by omega) (by decide),
    ofInt_eq_field 4 (by omega) (by omega) (by decide),
    ofInt_eq_field 5 (by omega) (by omega) (by decide),
    ofInt_eq_field 5 hhour.1 (by omega) (by decide),
    ofInt_eq_field 6 hmin.1 (by omega) (by decide),
    ofInt_eq_field 5 (by omega) (by omega) (by decide)]
  rfl

/-- `stat` decodes each field of the date that `get_fattime` packed, the seconds to an even number. -/
theorem unpackTm_packTm
    {tm : Tm} (hvalid : tm.Valid) (hrange : tm.InRange) (dir : Nat → Byte) (tm0 : Tm) :
    unpackTm tm0 (get_fileinfo (st_32 dir DIR_ModTime (packTm tm))) =
      { tm with
        tm_sec := tm.tm_sec - tm.tm_sec % 2
        tm_wday := tm0.tm_wday
        tm_yday := tm0.tm_yday
        tm_isdst := tm0.tm_isdst } := by
  have hmday := hvalid.mday.2.trans (mon_lengths_le _ _)
  rw [packTm_eq hvalid hrange, unpackTm, get_fileinfo]
  rcases hvalid with ⟨-, hmon, ⟨hmday0, -⟩, hhour, hmin, hsec⟩
  rcases hrange with ⟨hlow, hhigh⟩
  simp only [ld_16_low, ld_16_high, year_fieldsOf, mon_fieldsOf, mday_fieldsOf, hour_fieldsOf,
    min_fieldsOf, sec_fieldsOf]
  rw [toNat_field 5 (show 0 ≤ tm.tm_sec / 2 by omega) (by omega) (by decide),
    toNat_field 6 hmin.1 (by omega) (by decide), toNat_field 5 hhour.1 (by omega) (by decide),
    toNat_field 5 (show 0 ≤ tm.tm_mday by omega) (by omega) (by decide),
    toNat_field 4 (by omega) (by omega) (by decide),
    toNat_field 7 (by omega) (by omega) (by decide)]
  have hsec : tm.tm_sec / 2 * 2 = tm.tm_sec - tm.tm_sec % 2 := by omega
  rw [hsec, add_sub_cancel_right, sub_add_cancel]

/-- The second at which a year starts. -/
def yearStart (year : Nat) : Int := daysBefore (year - 1970) * 86400

theorem yearStart_1980 : yearStart 1980 = 3652 * 86400 := rfl

theorem yearStart_2108 : yearStart 2108 = 50403 * 86400 := by
  rw [yearStart, daysBefore_eq]
  decide

theorem daysInto_le (leap : Bool) {mon : Nat} (hmon : mon < 12) :
    0 ≤ daysInto leap mon ∧
      daysInto leap mon + (mon_lengths leap).getD mon 0 ≤ year_lengths leap := by
  cases leap <;> interval_cases mon <;> decide

/-- The seconds of a date lie in its year. -/
theorem seconds_in_year
    {tm : Tm} (hvalid : tm.Valid) {n : Nat} (hn : tm.tm_year = 70 + n) :
    daysBefore n * 86400 ≤ tm.seconds ∧ tm.seconds < daysBefore (n + 1) * 86400 := by
  rcases hvalid with ⟨-, hmon, hmday, hhour, hmin, hsec⟩
  have hinto := daysInto_le (isleap (tm.tm_year + 1900)) (show tm.tm_mon.toNat < 12 by omega)
  have hyear : (tm.tm_year - 70).toNat = n := by omega
  have hsince : (tm.tm_year + 1900 : Int) = 1970 + n := by omega
  rw [hsince] at hinto hmday
  rw [Tm.seconds, hyear, hsince, daysBefore]
  omega

theorem inRange_of_seconds
    {tm : Tm} (hvalid : tm.Valid) (hlow : yearStart 1980 ≤ tm.seconds)
    (hhigh : tm.seconds < yearStart 2108) :
    tm.InRange := by
  obtain ⟨n, hn⟩ : ∃ n : Nat, tm.tm_year = 70 + n :=
    ⟨(tm.tm_year - 70).toNat, by have := hvalid.year; omega⟩
  have hyear := seconds_in_year hvalid hn
  rw [yearStart_1980] at hlow
  rw [yearStart_2108] at hhigh
  have heq := daysBefore_eq n
  have heq' := daysBefore_eq (n + 1)
  rw [leaps_eq (by omega)] at heq heq'
  constructor <;> omega

/-- Making the seconds of a date even takes it back to an even second. -/
theorem seconds_even (tm tm0 : Tm) :
    Tm.seconds { tm with
      tm_sec := tm.tm_sec - tm.tm_sec % 2
      tm_wday := tm0.tm_wday
      tm_yday := tm0.tm_yday
      tm_isdst := tm0.tm_isdst } = tm.seconds - tm.seconds % 2 := by
  simp only [Tm.seconds]
  omega

/-- A timestamp from 1980 to 2107 is read back as it was packed, rounded down to an even second. -/
theorem stat_get_fattime
    {t : Int} (hlow : yearStart 1980 ≤ t) (hhigh : t < yearStart 2108)
    (dir : Nat → Byte) (tm0 : Tm) (sb : Stat) {fuel : Nat} (hfuel : 10000 ≤ fuel) :
    ∃ tm d st,
      gmtime_r fuel t = some tm ∧ tm.Valid ∧ tm.seconds = t ∧
      get_fattime fuel t = some d ∧
      unpackTm tm0 (get_fileinfo (st_32 dir DIR_ModTime d)) =
        { tm with
          tm_sec := tm.tm_sec - tm.tm_sec % 2
          tm_wday := tm0.tm_wday
          tm_yday := tm0.tm_yday
          tm_isdst := tm0.tm_isdst } ∧
      stat fuel 0 (get_fileinfo (st_32 dir DIR_ModTime d)) tm0 sb = some (0, st) ∧
      st.st_mtime = t - t % 2 ∧ st.st_atime = t - t % 2 ∧ st.st_ctime = t - t % 2 := by
  have hlow' := yearStart_1980
  have hhigh' := yearStart_2108
  obtain ⟨k, hk⟩ : ∃ k, fuel = k + 13 := ⟨fuel - 13, by omega⟩
  rcases gmtime_r_spec (show 0 ≤ t by omega) (by omega) k with ⟨tm, hgm, hvalid, hsecs⟩
  rw [← hk] at hgm
  rw [← hsecs] at hlow hhigh
  have hrange := inRange_of_seconds hvalid hlow hhigh
  have hunpack := unpackTm_packTm hvalid hrange dir tm0
  have hvalid' : (unpackTm tm0 (get_fileinfo (st_32 dir DIR_ModTime (packTm tm)))).Valid := by
    rw [hunpack]
    exact ⟨hvalid.year, hvalid.mon, hvalid.mday, hvalid.hour, hvalid.min, by
      have := hvalid.sec
      dsimp only
      omega⟩
  have htime := timegm_spec hvalid' (by
    rw [hunpack]
    have := hrange.2
    dsimp only
    omega) hfuel
  rw [hunpack, seconds_even, hsecs] at htime
  have hstat : stat fuel 0 (get_fileinfo (st_32 dir DIR_ModTime (packTm tm))) tm0 sb = some (0, {
      st_size := (get_fileinfo (st_32 dir DIR_ModTime (packTm tm))).fsize.toNat
      st_mtime := t - t % 2
      st_atime := t - t % 2
      st_ctime := t - t % 2
      st_mode := statMode (get_fileinfo (st_32 dir DIR_ModTime (packTm tm))).fattrib }) := by
    rw [stat, if_neg (by decide), hunpack, htime]
    rfl
  refine ⟨tm, packTm tm, _, hgm, hvalid, hsecs, ?_, hunpack, hstat, rfl, rfl, rfl⟩
  rw [get_fattime, hgm]
  rfl

/-- The last second that a timestamp can name. -/
theorem stat_lastSecond :
    ∃ tm d st,
      gmtime_r 10000 4354819199 = some tm ∧ tm.Valid ∧ tm.seconds = 4354819199 ∧
      get_fattime 10000 4354819199 = some d ∧
      unpackTm ⟨0, 0, 0, 0, 0, 0, 0, 0, 0⟩ (get_fileinfo (st_32 (fun _ => 0) DIR_ModTime d)) =
        { tm with
          tm_sec := tm.tm_sec - tm.tm_sec % 2
          tm_wday := 0
          tm_yday := 0
          tm_isdst := 0 } ∧
      stat 10000 0 (get_fileinfo (st_32 (fun _ => 0) DIR_ModTime d)) ⟨0, 0, 0, 0, 0, 0, 0, 0, 0⟩
        ⟨0, 0, 0, 0, 0⟩ = some (0, st) ∧
      st.st_mtime = 4354819198 ∧ st.st_atime = 4354819198 ∧ st.st_ctime = 4354819198 :=
  stat_get_fattime (t := 4354819199) (by decide)
    (by rw [yearStart_2108]; decide) (fun _ => 0)
    ⟨0, 0, 0, 0, 0, 0, 0, 0, 0⟩ ⟨0, 0, 0, 0, 0⟩ (le_refl 10000)

end RoundTrip

end Time
end F32c
