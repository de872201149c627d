import F32c.Loop
import F32c.Time.Rtc
import Mathlib.Tactic

/-!
# Reading the real time clock

`get_cpu_freq` and `clock_getres` decode the configuration word of the real time clock, and
`clock_gettime` reads its counters one after the other, again until the seconds stand still.
-/

namespace F32c
namespace Time

open Loop Clocked Rtc

abbrev Word := BitVec 32

section Model

/-- `rtc_res_tbl`. -/
def rtcResTbl : List Nat := [1, 2, 5, 10, 20, 50, 100, 200]

/-- `clk_freq`, from the configuration word and the entry of the table. -/
def clkFreq (rtcCfg incrNs : Word) : Word :=
  let clkFreq : BitVec 64 := 1000000000#64 + ((incrNs - 1#32) / 2#32).setWidth 64
  let clkFreq := clkFreq <<< 28
  let clkFreq := clkFreq / (rtcCfg >>> 4).setWidth 64 / incrNs.setWidth 64
  clkFreq.setWidth 32

/-- `get_cpu_freq`, with `none` for a read behind the table. -/
def getCpuFreq (rtcCfg : Word) : Option Word :=
  (rtcResTbl[(rtcCfg &&& 0xf#32).toNat]?).map fun entry => clkFreq rtcCfg (BitVec.ofNat 32 entry)

/-- `struct timespec`. -/
structure Timespec where
  tvSec : BitVec 64
  tvNsec : Word
deriving DecidableEq

/-- `clock_getres`, with `none` for a read behind the table. -/
def clockGetres (res : Option Timespec) (rtcCfg : Word) : Option (Int × Option Timespec) :=
  match res with
  | none => some (-1, none)
  | some _ =>
      (rtcResTbl[((rtcCfg >>> 24) &&& 0xf#32).toNat]?).map fun entry =>
        (0, some ⟨0#64, BitVec.ofNat 32 entry⟩)

def clockRealtime : Int := 0
def clockMonotonic : Int := 1

/-- What the reads of `clock_gettime` have given, and their number. -/
structure Reads where
  count : Nat
  sec : Word
  nsec : Word
  sec2 : Word

/-- One pass over the counters; `rd` is what the reads of the call give. -/
def readPass (rd : Nat → BitVec 2 → Word) (r : Reads) : Reads where
  count := r.count + 3
  sec := rd r.count 0b00#2
  nsec := rd (r.count + 1) 0b01#2
  sec2 := rd (r.count + 2) 0b00#2

/-- Passes are made until the seconds are the same before and after. -/
def readUptime (rd : Nat → BitVec 2 → Word) (fuel : Nat) : Option Reads :=
  whileLoop (fun r => r.sec != r.sec2) (readPass rd) fuel (readPass rd ⟨0, 0#32, 0#32, 0#32⟩)

/-- `clock_gettime`. -/
def clockGettime (rd : Nat → BitVec 2 → Word) (fuel : Nat) (clkId : Int) (tp : Option Timespec) :
    Option (Int × Option Timespec) :=
  if (clkId ≠ clockRealtime ∧ clkId ≠ clockMonotonic) ∨ tp.isNone then some (-1, tp)
  else do
    let r ← readUptime rd fuel
    let t : Timespec := ⟨r.sec.setWidth 64, r.nsec⟩
    if clkId ≠ clockRealtime then return (0, some t)
    let sec := rd r.count 0b11#2
    let t := { t with tvSec := t.tvSec + sec.setWidth 64 }
    if sec ≠ 0#32 then return (0, some t)
    return (-1, some ⟨0#64, 0#32⟩)

end Model

section Frequency

variable {hz incr : Nat}

/-- A rounded quotient is off by half of the divisor at most. -/
theorem nearest_bounds (num : Nat) {den : Nat} (hden : 0 < den) :
    2 * (nearest num den * den) ≤ 2 * num + den ∧ 2 * num < 2 * (nearest num den * den) + den := by
  have hpos : 0 < 2 * den := by omega
  have hle : nearest num den * (2 * den) ≤ 2 * num + den := Nat.div_mul_le_self _ _
  have hlt : 2 * num + den < (nearest num den + 1) * (2 * den) := Nat.lt_mul_of_div_lt (Nat.lt_succ_self _) hpos
  have hprod : nearest num den * (2 * den) = 2 * (nearest num den * den) := by ring
  rw [hprod] at hle
  rw [Nat.succ_mul (nearest num den), hprod] at hlt
  constructor <;> omega

/-- The prescaler increment fits its register. -/
theorem prescalerIncr_toNat (hrate : Rate hz (nsIncr hz)) :
    (prescalerIncr hz).toNat = nearest (1000000000 * 268435456) (nsIncr hz * hz) := by
  have hden := hrate.above
  have hpos : 0 < nsIncr hz * hz := by omega
  have hnear := (nearest_bounds (1000000000 * 268435456) hpos).1
  rw [prescalerIncr, BitVec.toNat_ofNat]
  apply Nat.mod_eq_of_lt
  by_contra hge
  have hmul : 2 ^ 28 * (nsIncr hz * hz) ≤
      nearest (1000000000 * 268435456) (nsIncr hz * hz) * (nsIncr hz * hz) :=
    Nat.mul_le_mul_right _ (Nat.not_lt.mp hge)
  omega

/-- The frequency computed from the prescaler is off by one part in a million at most. -/
theorem freq_bounds (hrate : Rate hz incr) {p q : Nat}
    (hp : p = nearest (1000000000 * 268435456) (incr * hz))
    (hq : q = (1000000000 + (incr - 1) / 2) * 268435456 / p / incr) :
    1000000 * q ≤ 1000001 * hz ∧ 1000000 * hz ≤ 1000000 * q + hz := by
  have habove := hrate.above
  have hbelow := hrate.below
  have hincr := hrate.le_200
  have hden : 0 < incr * hz := by omega
  have hnear := nearest_bounds (1000000000 * 268435456) hden
  rw [← hp] at hnear
  have hhz : 5000000 ≤ hz := by
    have := Nat.mul_le_mul_right hz hincr
    omega
  -- the product that the quotient is taken of, for each second
  have hprod : p * incr * hz = p * (incr * hz) := Nat.mul_assoc _ _ _
  have hpos : 0 < p * incr := by
    by_contra hzero
    rw [Nat.eq_zero_of_not_pos hzero, Nat.zero_mul] at hprod
    omega
  rw [Nat.div_div_eq_div_mul] at hq
  constructor
  · have hle : q * (p * incr) ≤ (1000000000 + (incr - 1) / 2) * 268435456 := by
      rw [hq]
      exact Nat.div_mul_le_self _ _
    have hcap : (1000000000 + (incr - 1) / 2) * 268435456 ≤ 1000000099 * 268435456 := by omega
    have hscale := Nat.mul_le_mul_right hz (hle.trans hcap)
    rw [Nat.mul_assoc, hprod] at hscale
    have hlow : q * (1000000000 * 268435456 - 1250000000) ≤ q * (p * (incr * hz)) :=
      Nat.mul_le_mul_left _ (by omega)
    omega
  · have hlt : (1000000000 + (incr - 1) / 2) * 268435456 < (q + 1) * (p * incr) := by
      rw [hq]
      exact Nat.lt_mul_of_div_lt (Nat.lt_succ_self _) hpos
    have hfloor : 1000000000 * 268435456 ≤ (q + 1) * (p * incr) := by omega
    have hscale := Nat.mul_le_mul_right hz hfloor
    rw [Nat.mul_assoc (q + 1), hprod] at hscale
    have hhigh : (q + 1) * (p * (incr * hz)) ≤ (q + 1) * (1000000000 * 268435456 + 1250000000) :=
      Nat.mul_le_mul_left _ (by omega)
    omega

end Frequency

section Configuration

variable {hz : Nat}

/-- The configuration word: the prescaler increment above the index of the increment. -/
def rtcCfg (hz : Nat) : Word := prescalerIncr hz ++ BitVec.ofNat 4 (nsIncrIndex hz)

theorem nsIncrIndex_lt (hz : Nat) : nsIncrIndex hz < 8 := by
  unfold nsIncrIndex
  split_ifs <;> decide

theorem rtcCfg_toNat (hz : Nat) :
    (rtcCfg hz).toNat = (prescalerIncr hz).toNat * 16 + nsIncrIndex hz := by
  have hlt := nsIncrIndex_lt hz
  have hindex : (BitVec.ofNat 4 (nsIncrIndex hz)).toNat = nsIncrIndex hz :=
    Nat.mod_eq_of_lt (by omega)
  rw [rtcCfg, BitVec.toNat_append, ← Nat.shiftLeft_add_eq_or_of_lt (BitVec.isLt _), hindex,
    Nat.shiftLeft_eq]

/-- Four bits of a word. -/
theorem nibble_toNat (w : Word) (k : Nat) : ((w >>> k) &&& 0xf#32).toNat = w.toNat / 2 ^ k % 16 := by
  rw [BitVec.toNat_and, BitVec.toNat_ushiftRight, Nat.shiftRight_eq_div_pow]
  exact Nat.and_two_pow_sub_one_eq_mod _ 4

theorem rtcCfg_index (hz : Nat) : (rtcCfg hz &&& 0xf#32).toNat = nsIncrIndex hz := by
  have hlt := nsIncrIndex_lt hz
  have hnibble := nibble_toNat (rtcCfg hz) 0
  rw [rtcCfg_toNat] at hnibble
  rw [BitVec.ushiftRight_zero] at hnibble
  omega

theorem rtcCfg_prescaler (hz : Nat) :
    ((rtcCfg hz >>> 4).setWidth 64).toNat = (prescalerIncr hz).toNat := by
  have hlt := nsIncrIndex_lt hz
  have hp := (prescalerIncr hz).isLt
  rw [BitVec.toNat_setWidth, BitVec.toNat_ushiftRight, Nat.shiftRight_eq_div_pow, rtcCfg_toNat]
  omega

theorem nsIncr_eq (hz : Nat) : nsIncr hz = rtcResTbl.getD (nsIncrIndex hz) 0 := by
  rfl

theorem rtcResTbl_index (hz : Nat) : rtcResTbl[nsIncrIndex hz]? = some (nsIncr hz) := by
  unfold nsIncr nsIncrIndex
  split_ifs <;> rfl

theorem clkFreq_toNat (hrate : Rate hz (nsIncr hz)) :
    (clkFreq (rtcCfg hz) (BitVec.ofNat 32 (nsIncr hz))).toNat =
      (1000000000 + (nsIncr hz - 1) / 2) * 268435456 / (prescalerIncr hz).toNat / nsIncr hz %
        2 ^ 32 := by
  have hincr := hrate.le_200
  have hpos := hrate.pos
  have hvalue : (BitVec.ofNat 32 (nsIncr hz)).toNat = nsIncr hz := Nat.mod_eq_of_lt (by omega)
  have hwide : ((BitVec.ofNat 32 (nsIncr hz)).setWidth 64).toNat = nsIncr hz := by
    rw [BitVec.toNat_setWidth, hvalue]
    omega
  have hhalf : ((BitVec.ofNat 32 (nsIncr hz) - 1#32) / 2#32).toNat = (nsIncr hz - 1) / 2 := by
    have hless : (BitVec.ofNat 32 (nsIncr hz) - 1#32).toNat = nsIncr hz - 1 := by
      rw [BitVec.toNat_sub, hvalue]
      change (2 ^ 32 - 1 + nsIncr hz) % 2 ^ 32 = nsIncr hz - 1
      omega
    rw [BitVec.toNat_udiv, hless]
    rfl
  have hshift : ((1000000000#64 +
      ((BitVec.ofNat 32 (nsIncr hz) - 1#32) / 2#32).setWidth 64) <<< 28).toNat =
      (1000000000 + (nsIncr hz - 1) / 2) * 268435456 := by
    rw [BitVec.toNat_shiftLeft, BitVec.toNat_add, BitVec.toNat_setWidth, hhalf, Nat.shiftLeft_eq]
    change (1000000000 + (nsIncr hz - 1) / 2 % 2 ^ 64) % 2 ^ 64 * 2 ^ 28 % 2 ^ 64 = _
    omega
  rw [clkFreq, BitVec.toNat_setWidth, BitVec.toNat_udiv, BitVec.toNat_udiv, hshift,
    rtcCfg_prescaler, hwide]

/-- `get_cpu_freq` is off by one part in a million at most. -/
theorem getCpuFreq_ppm (hrate : Rate hz (nsIncr hz)) (hhigh : hz ≤ 1000000000) :
    ∃ q, getCpuFreq (rtcCfg hz) = some q ∧
      1000000 * q.toNat ≤ 1000001 * hz ∧ 1000000 * hz ≤ 1000000 * q.toNat + hz := by
  have hbounds := freq_bounds hrate (prescalerIncr_toNat hrate) rfl
  refine ⟨clkFreq (rtcCfg hz) (BitVec.ofNat 32 (nsIncr hz)), ?_, ?_⟩
  · rw [getCpuFreq, rtcCfg_index, rtcResTbl_index]
    rfl
  · rw [clkFreq_toNat hrate, Nat.mod_eq_of_lt (by omega)]
    exact hbounds

/-- The table has no entry twice. -/
theorem rtcResTbl_inj : ∀ j < 8, ∀ k < 16,
    (rtcResTbl[k]?).map (BitVec.ofNat 32) = some (BitVec.ofNat 32 (rtcResTbl.getD j 0)) ↔
      k = j := by
  decide

/-- `clock_getres` decodes other bits: it is right just where they name the increment as well. -/
theorem clockGetres_iff (hz : Nat) (res : Timespec) :
    clockGetres (some res) (rtcCfg hz) = some (0, some ⟨0#64, BitVec.ofNat 32 (nsIncr hz)⟩) ↔
      ((prescalerIncr hz).extractLsb 23 20).toNat = nsIncrIndex hz := by
  have hlt := nsIncrIndex_lt hz
  have hbits : ((rtcCfg hz >>> 24) &&& 0xf#32).toNat =
      ((prescalerIncr hz).extractLsb 23 20).toNat := by
    rw [nibble_toNat, rtcCfg_toNat, BitVec.extractLsb_toNat, Nat.shiftRight_eq_div_pow]
    change _ = (prescalerIncr hz).toNat / 2 ^ 20 % 16
    omega
  have hnibble := ((prescalerIncr hz).extractLsb 23 20).isLt
  rw [clockGetres, hbits, ← rtcResTbl_inj _ hlt _ hnibble, ← nsIncr_eq]
  cases rtcResTbl[((prescalerIncr hz).extractLsb 23 20).toNat]? with
  | none => simp
  | some entry => simp

end Configuration

section Uptime

variable {c : Config} {inp : Nat → Bus} {clk : Nat → Nat}

/-- What the reads of a call give, when the one with the number `k` comes in the clock `clk k`. -/
def readAt (c : Config) (inp : Nat → Bus) (clk : Nat → Nat) (k : Nat) (addr : BitVec 2) : Word :=
  busOut c (rtcAt c inp (clk k)) addr

/-- Fewer than `2 ^ 32` seconds go by between the reads of a pass. -/
def NoWrap (c : Config) (inp : Nat → Bus) (clk : Nat → Nat) : Prop :=
  ∀ k, overflowsBefore c inp (clk (k + 2)) / (1000000000 / nsIncr c.hz) <
    overflowsBefore c inp (clk k) / (1000000000 / nsIncr c.hz) + 2 ^ 32

/-- A pass that was made last. -/
theorem readUptime_last {rd : Nat → BitVec 2 → Word} {fuel : Nat} {r : Reads}
    (h : readUptime rd fuel = some r) :
    ∃ k, r.count = k + 3 ∧ r.sec = rd k 0b00#2 ∧ r.nsec = rd (k + 1) 0b01#2 ∧
      rd (k + 2) 0b00#2 = rd k 0b00#2 := by
  have hkeep := whileLoop_keep
    (fun r => ∃ k, r.count = k + 3 ∧ r.sec = rd k 0b00#2 ∧ r.nsec = rd (k + 1) 0b01#2 ∧
      r.sec2 = rd (k + 2) 0b00#2)
    (fun r _ _ => ⟨r.count, rfl, rfl, rfl, rfl⟩) fuel _ r ⟨0, rfl, rfl, rfl, rfl⟩ h
  rcases hkeep with ⟨⟨k, hcount, hsec, hnsec, hsec2⟩, hstop⟩
  have hsame : r.sec = r.sec2 := by simpa using hstop
  exact ⟨k, hcount, hsec, hnsec, by rw [← hsec2, ← hsame, hsec]⟩

/-- The passes end when the seconds stand still in one of them. -/
theorem readUptime_ends {rd : Nat → BitVec 2 → Word} {j : Nat}
    (hsame : rd (3 * j + 2) 0b00#2 = rd (3 * j) 0b00#2) {fuel : Nat} (hfuel : j < fuel) :
    ∃ r, readUptime rd fuel = some r := by
  have hrule : ∃ r, readUptime rd fuel = some r ∧
      (∃ k ≤ j, r.count = 3 * k + 3 ∧ r.sec = rd (3 * k) 0b00#2 ∧
        r.sec2 = rd (3 * k + 2) 0b00#2) ∧ (r.sec != r.sec2) = false := by
    unfold readUptime
    apply whileLoop_rule (fun r : Reads => ∃ k ≤ j, r.count = 3 * k + 3 ∧
      r.sec = rd (3 * k) 0b00#2 ∧ r.sec2 = rd (3 * k + 2) 0b00#2)
      (fun r : Reads => j - (r.count / 3 - 1))
    · rintro r ⟨k, hk, hcount, hsec, hsec2⟩ hgo
      have hne : k ≠ j := by
        rintro rfl
        rw [hsec, hsec2, hsame] at hgo
        simp at hgo
      refine ⟨⟨k + 1, by omega, ?_, ?_, ?_⟩, ?_⟩
      · change r.count + 3 = 3 * (k + 1) + 3
        omega
      · change rd r.count 0b00#2 = rd (3 * (k + 1)) 0b00#2
        rw [hcount, Nat.mul_succ]
      · change rd (r.count + 2) 0b00#2 = rd (3 * (k + 1) + 2) 0b00#2
        rw [hcount, Nat.mul_succ]
      · change j - ((r.count + 3) / 3 - 1) < j - (r.count / 3 - 1)
        omega
    · exact ⟨0, Nat.zero_le _, rfl, rfl, rfl⟩
    · change j - ((0 + 3) / 3 - 1) < fuel
      omega
  rcases hrule with ⟨r, hrun, -, -⟩
  exact ⟨r, hrun⟩

/-- When the seconds are the same before and after, they were the same in between. -/
theorem seconds_between (hrate : Rate c.hz (nsIncr c.hz)) (hmono : Monotone clk)
    (hwrap : NoWrap c inp clk) {k : Nat}
    (hsame : readAt c inp clk (k + 2) 0b00#2 = readAt c inp clk k 0b00#2) :
    (rtcAt c inp (clk (k + 1))).uptimeS = (rtcAt c inp (clk k)).uptimeS := by
  have hfirst := (shows_rtcAt hrate inp (clk k)).seconds
  have hmiddle := (shows_rtcAt hrate inp (clk (k + 1))).seconds
  have hlast := (shows_rtcAt hrate inp (clk (k + 2))).seconds
  have hlow : overflowsBefore c inp (clk k) ≤ overflowsBefore c inp (clk (k + 1)) :=
    overflowsBefore_mono (hmono (Nat.le_add_right k 1))
  have hhigh : overflowsBefore c inp (clk (k + 1)) ≤ overflowsBefore c inp (clk (k + 2)) :=
    overflowsBefore_mono (hmono (Nat.le_add_right (k + 1) 1))
  have hsame' : (rtcAt c inp (clk (k + 2))).uptimeS = (rtcAt c inp (clk k)).uptimeS := hsame
  have hless := hwrap k
  have hlow' := Nat.div_le_div_right (c := 1000000000 / nsIncr c.hz) hlow
  have hhigh' := Nat.div_le_div_right (c := 1000000000 / nsIncr c.hz) hhigh
  apply BitVec.eq_of_toNat_eq
  rw [← hsame', hlast] at hfirst
  rw [hmiddle, ← hsame', hlast]
  omega

/-- The time that is returned was held during the call. -/
theorem clockGettime_held (hrate : Rate c.hz (nsIncr c.hz)) (hmono : Monotone clk)
    (hwrap : NoWrap c inp clk) {fuel : Nat} {tp : Timespec} {ret : Int} {t : Timespec}
    (h : clockGettime (readAt c inp clk) fuel clockMonotonic (some tp) = some (ret, some t)) :
    ret = 0 ∧ ∃ r now, readUptime (readAt c inp clk) fuel = some r ∧
      clk 0 ≤ now ∧ now ≤ clk (r.count - 1) ∧
      t = ⟨(rtcAt c inp now).uptimeS.setWidth 64, (rtcAt c inp now).uptimeNs.setWidth 32⟩ := by
  rw [clockGettime, if_neg (by simp [clockMonotonic, clockRealtime])] at h
  cases hread : readUptime (readAt c inp clk) fuel with
  | none =>
      rw [hread] at h
      cases h
  | some r =>
      rw [hread] at h
      simp only [Option.bind_eq_bind, Option.bind_some, clockMonotonic, clockRealtime, ne_eq,
        one_ne_zero, not_false_eq_true, if_true, Option.pure_def, Option.some.injEq,
        Prod.mk.injEq] at h
      rcases h with ⟨rfl, rfl⟩
      rcases readUptime_last hread with ⟨k, hcount, hsec, hnsec, hsame⟩
      have hbetween := seconds_between hrate hmono hwrap hsame
      refine ⟨rfl, r, clk (k + 1), rfl, hmono (Nat.zero_le _), hmono (by omega), ?_⟩
      have hsec' : r.sec = (rtcAt c inp (clk (k + 1))).uptimeS := hsec.trans hbetween.symm
      have hnsec' : r.nsec = (rtcAt c inp (clk (k + 1))).uptimeNs.setWidth 32 := by
        rw [hnsec]
        apply BitVec.eq_of_toNat_eq
        have hlt := (rtcAt c inp (clk (k + 1))).uptimeNs.isLt
        change (0b00#2 ++ (rtcAt c inp (clk (k + 1))).uptimeNs).toNat = _
        rw [BitVec.toNat_append, BitVec.toNat_setWidth]
        simp only [BitVec.toNat_ofNat, Nat.zero_mod, Nat.zero_shiftLeft, Nat.zero_or]
        omega
      rw [hsec', hnsec']

end Uptime

section Result

/-- The real time clock at a frequency, and what the library makes of it. -/
structure KeepsTime (hz : Nat) : Prop where
  uptime : ∀ boottime inp t, nsIncr hz ∣ (rtcAt ⟨hz, boottime⟩ inp t).uptimeNs.toNat ∧
    (rtcAt ⟨hz, boottime⟩ inp t).uptimeNs.toNat < 1000000000 ∧
    (rtcAt ⟨hz, boottime⟩ inp t).uptimeS.toNat * 1000000000 +
        (rtcAt ⟨hz, boottime⟩ inp t).uptimeNs.toNat =
      nsIncr hz * overflowsBefore ⟨hz, boottime⟩ inp t % (2 ^ 32 * 1000000000)
  gettime : ∀ boottime inp clk, Monotone clk → NoWrap ⟨hz, boottime⟩ inp clk → ∀ fuel tp ret t,
    clockGettime (readAt ⟨hz, boottime⟩ inp clk) fuel clockMonotonic (some tp) =
      some (ret, some t) →
    ret = 0 ∧ ∃ r now, readUptime (readAt ⟨hz, boottime⟩ inp clk) fuel = some r ∧
      clk 0 ≤ now ∧ now ≤ clk (r.count - 1) ∧
      t = ⟨(rtcAt ⟨hz, boottime⟩ inp now).uptimeS.setWidth 64,
        (rtcAt ⟨hz, boottime⟩ inp now).uptimeNs.setWidth 32⟩
  ends : ∀ boottime inp clk j,
    (rtcAt ⟨hz, boottime⟩ inp (clk (3 * j + 2))).uptimeS =
      (rtcAt ⟨hz, boottime⟩ inp (clk (3 * j))).uptimeS →
    ∀ fuel, j < fuel → ∃ r, readUptime (readAt ⟨hz, boottime⟩ inp clk) fuel = some r
  freq : ∀ boottime s, ∃ q, getCpuFreq (busOut ⟨hz, boottime⟩ s 0b10#2) = some q ∧
    1000000 * q.toNat ≤ 1000001 * hz ∧ 1000000 * hz ≤ 1000000 * q.toNat + hz
  res : ∀ boottime s tp, clockGetres (some tp) (busOut ⟨hz, boottime⟩ s 0b10#2) =
    some (0, some ⟨0#64, BitVec.ofNat 32 (nsIncr hz)⟩)

/-- Time is kept, and read, and the frequency computed, at every frequency; `clock_getres` takes
bits of the prescaler increment for the index, which is right just where they are the same. -/
theorem keepsTime_iff (hz : Nat) (hlow : 5000001 ≤ hz) (hhigh : hz ≤ 1000000000) :
    KeepsTime hz ↔ ((prescalerIncr hz).extractLsb 23 20).toNat = nsIncrIndex hz := by
  have hrate := rate hlow hhigh
  constructor
  · intro h
    exact (clockGetres_iff hz ⟨0#64, 0#32⟩).mp (h.res false zero ⟨0#64, 0#32⟩)
  · intro hbits
    constructor
    · intro boottime inp t
      exact (shows_rtcAt (c := ⟨hz, boottime⟩) hrate inp t).time hrate
    · intro boottime inp clk hmono hwrap fuel tp ret t h
      exact clockGettime_held (c := ⟨hz, boottime⟩) hrate hmono hwrap h
    · intro boottime inp clk j hsame fuel hfuel
      exact readUptime_ends hsame hfuel
    · intro _ _
      exact getCpuFreq_ppm hrate hhigh
    · intro _ _ tp
      exact (clockGetres_iff hz tp).mpr hbits

/-- At 392 MHz the bits are the same. -/
theorem keepsTime_392 : KeepsTime 392000000 := by
  refine (keepsTime_iff 392000000 ?_ ?_).mpr ?_
  · omega
  · omega
  · decide +kernel

/-- At 100 MHz the resolution is 20 ns, and `clock_getres` says 1 ns. -/
theorem clockGetres_wrong :
    nsIncr 100000000 = 20 ∧
      clockGetres (some ⟨0#64, 0#32⟩) (busOut ⟨100000000, true⟩ zero 0b10#2) =
        some (0, some ⟨0#64, 1#32⟩) ∧
      ¬KeepsTime 100000000 := by
  refine ⟨by decide +kernel, by decide +kernel, ?_⟩
  intro h
  have hres := h.res true zero ⟨0#64, 0#32⟩
  revert hres
  decide +kernel

end Result

end Time
end F32c
