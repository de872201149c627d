import F32c.Loop
import Mathlib.Data.List.GetD
import Mathlib.Tactic

/-!
# Calendar time

`timesub` takes a number of seconds to a date: it guesses the year from the number of days and
corrects the guess until the days that are left lie in the year.  `timegm` takes a date to a
number of seconds by adding up the years and the months.  The meaning of a date is `Tm.seconds`,
the seconds from the start of 1970, which both of them compute.
-/

namespace F32c
namespace Time

open Loop

/-- `struct tm`, the fields that the library sets. -/
structure Tm where
  tm_sec : Int
  tm_min : Int
  tm_hour : Int
  tm_mday : Int
  tm_mon : Int
  tm_year : Int
  tm_wday : Int
  tm_yday : Int
  tm_isdst : Int
  deriving DecidableEq, Repr

section Model

/-- A value converted to `long` or `int`. -/
def long (x : Int) : Int := x.bmod (2 ^ 32)

/-- A value converted to `unsigned`. -/
def unsigned (x : Int) : Nat := (x % 2 ^ 32).toNat

/-- `isleap` -/
def isleap (y : Int) : Bool := y.tmod 4 = 0 ∧ (y.tmod 100 ≠ 0 ∨ y.tmod 400 = 0)

/-- `mon_lengths` and `ndays`, which hold the same numbers. -/
def mon_lengths (leap : Bool) : List Int :=
  [31, if leap then 29 else 28, 31, 30, 31, 30, 31, 31, 30, 31, 30, 31]

/-- `year_lengths` -/
def year_lengths (leap : Bool) : Int := if leap then 366 else 365

/-- `LEAPS_THRU_END_OF` -/
def leaps_thru_end_of (y : Int) : Int := y.tdiv 4 - y.tdiv 100 + y.tdiv 400

/-- The pass of the loop that finds the year, over the days and the year. -/
def yearPass (s : Int × Int) : Int × Int :=
  let (days, y) := s
  let newy := y + days.tdiv 365
  let newy := if days < 0 then newy - 1 else newy
  (days - ((newy - y) * 365 + leaps_thru_end_of (newy - 1) - leaps_thru_end_of (y - 1)), newy)

/-- `timesub`; `fuel` bounds each of its loops. -/
def timesub (fuel : Nat) (timep offset : Int) : Option Tm := do
  let days := long (timep.tdiv 86400)
  let rem := timep.tmod 86400 + offset
  let (days, rem) ←
    whileLoop (fun s => s.2 < 0) (fun s => (s.1 - 1, s.2 + 86400)) fuel (days, rem)
  let (days, rem) ←
    whileLoop (fun s => 86400 ≤ s.2) (fun s => (s.1 + 1, s.2 - 86400)) fuel (days, rem)
  let wday := (4 + days).tmod 7
  let (yday, y) ←
    whileLoop (fun s => s.1 < 0 ∨ year_lengths (isleap s.2) ≤ s.1) yearPass fuel (days, 1970)
  -- the test that ended the loop has set `yleap`
  let ip := mon_lengths (isleap y)
  let (days, mon) ←
    whileLoop (fun s => ip.getD s.2 0 ≤ s.1) (fun s => (s.1 - ip.getD s.2 0, s.2 + 1)) fuel
      (yday, 0)
  return {
    tm_hour := rem.tdiv 3600
    tm_min := (rem.tmod 3600).tdiv 60
    tm_sec := (rem.tmod 3600).tmod 60
    tm_wday := if wday < 0 then wday + 7 else wday
    tm_year := y - 1900
    tm_yday := yday
    tm_mon := mon
    tm_mday := days + 1
    tm_isdst := 0 }

/-- `gmtime_r` -/
def gmtime_r (fuel : Nat) (timep : Int) : Option Tm := timesub fuel timep 0

/-- `is_leap`, of a year since 1900. -/
def is_leap (y : Nat) : Bool :=
  let y := (y + 1900) % 2 ^ 32
  y % 4 = 0 ∧ (y % 100 ≠ 0 ∨ y % 400 = 0)

/-- `timegm`; `fuel` bounds each of its loops. -/
def timegm (fuel : Nat) (tm : Tm) : Option Int :=
  if tm.tm_mon > 12 ∨ tm.tm_mon < 0 ∨ tm.tm_mday > 31 ∨ tm.tm_min > 60 ∨ tm.tm_sec > 60 ∨
      tm.tm_hour > 24 then
    some 0
  else do
    let (_, res) ←
      whileLoop (fun s => s.1 < unsigned tm.tm_year)
        (fun s => (s.1 + 1, s.2 + if is_leap s.1 then 366 else 365)) fuel (70, (0 : Int))
    let (_, res) ←
      whileLoop (fun s => s.1 < unsigned tm.tm_mon)
        (fun s => (s.1 + 1, s.2 + (mon_lengths (is_leap (unsigned tm.tm_year))).getD s.1 0)) fuel
        (0, res)
    let res := res + (tm.tm_mday - 1)
    let res := res * 24
    let res := res + tm.tm_hour
    let res := res * 60
    let res := res + tm.tm_min
    let res := res * 60
    return res + tm.tm_sec

end Model

section Meaning

theorem isleap_iff {y : Int} (hy : 0 ≤ y) :
    isleap y = true ↔ y % 4 = 0 ∧ (y % 100 ≠ 0 ∨ y % 400 = 0) := by
  simp [isleap, Int.tmod_eq_emod_of_nonneg hy]

/-- Both tests for a leap year agree. -/
theorem is_leap_eq {y : Nat} (hy : y < 10000) : is_leap y = isleap (y + 1900) := by
  rw [Bool.eq_iff_iff, isleap_iff (by omega)]
  simp only [is_leap, decide_eq_true_eq, Nat.mod_eq_of_lt (show y + 1900 < 2 ^ 32 by omega)]
  omega

theorem leaps_eq {y : Int} (hy : 0 ≤ y) :
    leaps_thru_end_of y = y / 4 - y / 100 + y / 400 := by
  simp only [leaps_thru_end_of, Int.tdiv_eq_ediv_of_nonneg hy]

/-- The days of the first `n` years from 1970. -/
def daysBefore : Nat → Int
  | 0 => 0
  | n + 1 => daysBefore n + year_lengths (isleap (1970 + n))

theorem daysBefore_eq (n : Nat) :
    daysBefore n = 365 * n + leaps_thru_end_of (1969 + n) - 477 := by
  induction n with
  | zero =>
      rfl
  | succ n ih =>
      have hleap := isleap_iff (show 0 ≤ (1970 + n : Int) by omega)
      rw [daysBefore, ih, leaps_eq (by omega), leaps_eq (by omega), year_lengths]
      push_cast
      split_ifs with h
      · have := hleap.1 h
        omega
      · have := mt hleap.2 h
        omega

/-- The days of the year before the month with a number. -/
def daysInto (leap : Bool) (mon : Nat) : Int := ((mon_lengths leap).take mon).sum

/-- The seconds from the start of 1970 to a date. -/
def Tm.seconds (tm : Tm) : Int :=
  (((daysBefore (tm.tm_year - 70).toNat + daysInto (isleap (tm.tm_year + 1900)) tm.tm_mon.toNat +
    (tm.tm_mday - 1)) * 24 + tm.tm_hour) * 60 + tm.tm_min) * 60 + tm.tm_sec

/-- A date from 1970 on that exists. -/
structure Tm.Valid (tm : Tm) : Prop where
  year : 70 ≤ tm.tm_year
  mon : 0 ≤ tm.tm_mon ∧ tm.tm_mon < 12
  mday : 1 ≤ tm.tm_mday ∧
    tm.tm_mday ≤ (mon_lengths (isleap (tm.tm_year + 1900))).getD tm.tm_mon.toNat 0
  hour : 0 ≤ tm.tm_hour ∧ tm.tm_hour < 24
  min : 0 ≤ tm.tm_min ∧ tm.tm_min < 60
  sec : 0 ≤ tm.tm_sec ∧ tm.tm_sec < 60

theorem mon_lengths_sum (leap : Bool) : (mon_lengths leap).sum = year_lengths leap := by
  cases leap <;> rfl

theorem mon_lengths_le (leap : Bool) (i : Nat) : (mon_lengths leap).getD i 0 ≤ 31 := by
  by_cases hi : i < 12
  · interval_cases i <;> cases leap <;> decide
  · rw [List.getD_eq_default _ _ (by simpa [mon_lengths] using hi)]
    decide

end Meaning

section Positions

variable {ls : List Int}

/-- The loop that takes lengths off a number finds the interval in which the number lies. -/
theorem locate_loop
    {d : Int} (h0 : 0 ≤ d) (hd : d < ls.sum) {fuel : Nat} (hfuel : ls.length < fuel) :
    ∃ i, whileLoop (fun s => ls.getD s.2 0 ≤ s.1) (fun s => (s.1 - ls.getD s.2 0, s.2 + 1)) fuel
        (d, 0) = some (d - (ls.take i).sum, i) ∧
      i < ls.length ∧ 0 ≤ d - (ls.take i).sum ∧ d - (ls.take i).sum < ls.getD i 0 := by
  have hloop : ∃ s, whileLoop (fun s => ls.getD s.2 0 ≤ s.1)
      (fun s => (s.1 - ls.getD s.2 0, s.2 + 1)) fuel (d, 0) = some s ∧
      (s.2 ≤ ls.length ∧ s.1 = d - (ls.take s.2).sum ∧ 0 ≤ s.1) ∧
      decide (ls.getD s.2 0 ≤ s.1) = false := by
    apply whileLoop_rule (fun s : Int × Nat =>
      s.2 ≤ ls.length ∧ s.1 = d - (ls.take s.2).sum ∧ 0 ≤ s.1) (fun s => ls.length - s.2)
    · rintro ⟨r, i⟩ ⟨hi, hr, hr0⟩ htest
      simp only [decide_eq_true_eq] at htest hi hr hr0 ⊢
      have hlt : i < ls.length := by
        rcases Nat.lt_or_eq_of_le hi with hi | hi
        · exact hi
        · rw [hi, List.take_length] at hr
          omega
      rw [List.sum_take_succ ls i hlt]
      rw [List.getD_eq_getElem _ _ hlt] at htest ⊢
      omega
    · simpa using h0
    · simpa using hfuel
  rcases hloop with ⟨⟨r, i⟩, hrun, ⟨hi, hr, hr0⟩, hexit⟩
  simp only [decide_eq_false_iff_not, not_le] at hexit hr hr0
  have hlt : i < ls.length := by
    rcases Nat.lt_or_eq_of_le hi with hi | hi
    · exact hi
    · rw [List.getD_eq_default _ _ (le_of_eq hi.symm)] at hexit
      omega
  exact ⟨i, by rw [hrun, hr], hlt, by omega, by omega⟩

/-- The loop that adds up the numbers of a series from `a` to `n`. -/
theorem sum_loop
    (f g : Nat → Int) (r : Int) {a n : Nat} (ha : a ≤ n)
    (hg : ∀ i, a ≤ i → i < n → g (i + 1) = g i + f i) {fuel : Nat} (hfuel : n - a < fuel) :
    whileLoop (fun s : Nat × Int => s.1 < n) (fun s => (s.1 + 1, s.2 + f s.1)) fuel (a, r) =
      some (n, r + (g n - g a)) := by
  have hloop : ∃ s, whileLoop (fun s : Nat × Int => s.1 < n)
      (fun s => (s.1 + 1, s.2 + f s.1)) fuel (a, r) = some s ∧
      (a ≤ s.1 ∧ s.1 ≤ n ∧ s.2 = r + (g s.1 - g a)) ∧ decide (s.1 < n) = false := by
    apply whileLoop_rule (fun s : Nat × Int =>
      a ≤ s.1 ∧ s.1 ≤ n ∧ s.2 = r + (g s.1 - g a)) (fun s => n - s.1)
    · rintro ⟨i, x⟩ ⟨hai, hin, hx⟩ htest
      simp only [decide_eq_true_eq] at htest hx hai hin ⊢
      have := hg i hai htest
      omega
    · exact ⟨le_refl a, ha, by simp⟩
    · exact hfuel
  rcases hloop with ⟨⟨i, x⟩, hrun, ⟨hai, hin, hx⟩, hexit⟩
  simp only [decide_eq_false_iff_not, not_lt] at hexit hx hin
  rw [hrun, hx, le_antisymm hin hexit]

end Positions

section Gmtime

theorem yearPass_eq {D : Int} {n m : Nat}
    (hm : (1970 + m : Int) = 1970 + n + (D - daysBefore n).tdiv 365 -
      if D - daysBefore n < 0 then 1 else 0) :
    yearPass (D - daysBefore n, 1970 + (n : Int)) = (D - daysBefore m, 1970 + (m : Int)) := by
  have hy : (if D - daysBefore n < 0 then 1970 + n + (D - daysBefore n).tdiv 365 - 1
      else 1970 + n + (D - daysBefore n).tdiv 365) = (1970 + m : Int) := by
    split_ifs at hm ⊢ <;> omega
  have hn := daysBefore_eq n
  have hm := daysBefore_eq m
  simp only [yearPass, hy]
  rw [show (1970 + m - 1 : Int) = 1969 + m by omega, show (1970 + n - 1 : Int) = 1969 + n by omega]
  ext
  · dsimp only
    omega
  · rfl

theorem year_loop_stop
    {D : Int} {n : Nat} (h0 : 0 ≤ D - daysBefore n)
    (h1 : D - daysBefore n < year_lengths (isleap (1970 + n))) (fuel : Nat) :
    whileLoop (fun s => s.1 < 0 ∨ year_lengths (isleap s.2) ≤ s.1) yearPass (fuel + 1)
      (D - daysBefore n, 1970 + (n : Int)) = some (D - daysBefore n, 1970 + (n : Int)) := by
  apply whileLoop_of_false
  simp only [decide_eq_false_iff_not]
  omega

theorem year_loop_pass
    {D : Int} {n m : Nat}
    (htest : D - daysBefore n < 0 ∨ year_lengths (isleap (1970 + n)) ≤ D - daysBefore n)
    (hm : (1970 + m : Int) = 1970 + n + (D - daysBefore n).tdiv 365 -
      if D - daysBefore n < 0 then 1 else 0) (fuel : Nat) :
    whileLoop (fun s => s.1 < 0 ∨ year_lengths (isleap s.2) ≤ s.1) yearPass (fuel + 1)
      (D - daysBefore n, 1970 + (n : Int)) =
    whileLoop (fun s => s.1 < 0 ∨ year_lengths (isleap s.2) ≤ s.1) yearPass fuel
      (D - daysBefore m, 1970 + (m : Int)) := by
  rw [whileLoop_of_true (by simpa using htest), yearPass_eq hm]

/-- The loop that finds the year ends in the year in which the day lies. -/
theorem year_loop
    {D : Int} (h0 : 0 ≤ D) (hD : D < 500000) (fuel : Nat) :
    ∃ n : Nat, whileLoop (fun s => s.1 < 0 ∨ year_lengths (isleap s.2) ≤ s.1) yearPass (fuel + 3)
        (D, 1970) = some (D - daysBefore n, 1970 + (n : Int)) ∧
      0 ≤ D - daysBefore n ∧ D - daysBefore n < year_lengths (isleap (1970 + n)) := by
  have hstart : ((D, 1970) : Int × Int) = (D - daysBefore 0, 1970 + ((0 : Nat) : Int)) := by
    simp [daysBefore]
  have hzero : D - daysBefore 0 = D := by simp [daysBefore]
  rw [hstart]
  rcases Int.lt_or_le D 365 with hfirst | hlater
  · have h1 : D - daysBefore 0 < year_lengths (isleap (1970 + (0 : Nat))) := by
      rw [hzero]
      exact hfirst
    exact ⟨0, year_loop_stop (by omega) h1 _, by omega, h1⟩
  · -- the guess is as many years of 365 days as fit, so that it is at most a year too late
    obtain ⟨k, hk⟩ : ∃ k : Nat, D / 365 = k + 1 := ⟨(D / 365 - 1).toNat, by omega⟩
    have hguess : (1970 + (k + 1 : Nat) : Int) = 1970 + (0 : Nat) + (D - daysBefore 0).tdiv 365 -
        if D - daysBefore 0 < 0 then 1 else 0 := by
      rw [hzero, Int.tdiv_eq_ediv_of_nonneg h0, if_neg (by omega)]
      omega
    have h1970 : year_lengths (isleap (1970 + (0 : Nat))) = 365 := rfl
    have hlow := daysBefore_eq k
    have hhigh := daysBefore_eq (k + 1)
    rw [leaps_eq (by omega)] at hlow hhigh
    rw [year_loop_pass (Or.inr (by omega)) hguess]
    rcases Int.lt_or_le (D - daysBefore (k + 1)) 0 with hneg | hpos
    · have hback : (1970 + k : Int) =
          1970 + (k + 1 : Nat) + (D - daysBefore (k + 1)).tdiv 365 -
            if D - daysBefore (k + 1) < 0 then 1 else 0 := by
        rw [if_pos hneg]
        have : (D - daysBefore (k + 1)).tdiv 365 = 0 := by
          rw [← neg_neg (D - daysBefore (k + 1)), Int.neg_tdiv,
            Int.tdiv_eq_ediv_of_nonneg (by omega)]
          omega
        omega
      have h0 : 0 ≤ D - daysBefore k := by omega
      have h1 : D - daysBefore k < year_lengths (isleap (1970 + k)) := by
        rw [daysBefore] at hneg
        omega
      rw [year_loop_pass (Or.inl hneg) hback]
      exact ⟨k, year_loop_stop h0 h1 _, h0, h1⟩
    · have h1 : D - daysBefore (k + 1) < year_lengths (isleap (1970 + (k + 1 : Nat))) := by
        have : 365 ≤ year_lengths (isleap (1970 + (k + 1 : Nat))) := by
          cases isleap (1970 + (k + 1 : Nat)) <;> decide
        omega
      exact ⟨k + 1, year_loop_stop hpos h1 _, hpos, h1⟩

theorem mon_lengths_length (leap : Bool) : (mon_lengths leap).length = 12 := rfl

/-- `gmtime_r` gives the date that exists with the number of seconds. -/
theorem gmtime_r_spec
    {t : Int} (h0 : 0 ≤ t) (ht : t < 500000 * 86400) (fuel : Nat) :
    ∃ tm, gmtime_r (fuel + 13) t = some tm ∧ tm.Valid ∧ tm.seconds = t := by
  have hdays : long (t.tdiv 86400) = t / 86400 := by
    rw [long, Int.tdiv_eq_ediv_of_nonneg h0, Int.bmod_eq_of_le] <;> omega
  have hrem : t.tmod 86400 = t % 86400 := Int.tmod_eq_emod_of_nonneg h0
  have hhour : (t % 86400).tdiv 3600 = t % 86400 / 3600 := Int.tdiv_eq_ediv_of_nonneg (by omega)
  have hhourRem : (t % 86400).tmod 3600 = t % 86400 % 3600 :=
    Int.tmod_eq_emod_of_nonneg (by omega)
  have hmin : (t % 86400 % 3600).tdiv 60 = t % 86400 % 3600 / 60 :=
    Int.tdiv_eq_ediv_of_nonneg (by omega)
  have hsec : (t % 86400 % 3600).tmod 60 = t % 86400 % 3600 % 60 :=
    Int.tmod_eq_emod_of_nonneg (by omega)
  rcases year_loop (show 0 ≤ t / 86400 by omega) (by omega) (fuel + 10) with ⟨n, hyear, hn0, hn1⟩
  rw [← mon_lengths_sum] at hn1
  rcases locate_loop hn0 hn1 (show _ < fuel + 13 by rw [mon_lengths_length]; omega)
    with ⟨mon, hmon, hlt, hm0, hm1⟩
  have hloops : gmtime_r (fuel + 13) t = some {
      tm_hour := t % 86400 / 3600
      tm_min := t % 86400 % 3600 / 60
      tm_sec := t % 86400 % 3600 % 60
      tm_wday := if (4 + t / 86400).tmod 7 < 0 then (4 + t / 86400).tmod 7 + 7
        else (4 + t / 86400).tmod 7
      tm_year := 1970 + n - 1900
      tm_yday := t / 86400 - daysBefore n
      tm_mon := mon
      tm_mday := t / 86400 - daysBefore n - ((mon_lengths (isleap (1970 + n))).take mon).sum + 1
      tm_isdst := 0 } := by
    rw [gmtime_r, timesub, hdays, hrem, add_zero, whileLoop_of_false (by simp; omega)]
    dsimp only [Option.bind_eq_bind, Option.bind_some]
    rw [whileLoop_of_false (by simp; omega)]
    dsimp only [Option.bind_eq_bind, Option.bind_some]
    rw [hyear]
    dsimp only [Option.bind_eq_bind, Option.bind_some]
    rw [hmon]
    dsimp only [Option.bind_eq_bind, Option.bind_some]
    rw [hhour, hhourRem, hmin, hsec]
    rfl
  have hsecs : t % 86400 % 3600 % 60 + 60 * (t % 86400 % 3600 / 60) +
      3600 * (t % 86400 / 3600) + 86400 * (t / 86400) = t := by
    omega
  have hyears : (1970 + n - 1900 - 70 : Int).toNat = n := by omega
  have hsince : (1970 + n - 1900 + 1900 : Int) = 1970 + n := by omega
  rw [mon_lengths_length] at hlt
  refine ⟨_, hloops, ?_, ?_⟩
  · constructor
    · dsimp only
      omega
    · dsimp only
      omega
    · dsimp only
      rw [hsince, Int.toNat_natCast]
      omega
    · dsimp only
      omega
    · dsimp only
      omega
    · dsimp only
      omega
  · rw [Tm.seconds]
    dsimp only
    rw [hyears, hsince, Int.toNat_natCast, daysInto]
    linear_combination hsecs

end Gmtime

section Timegm

/-- `timegm` gives the number of seconds of a date that exists. -/
theorem timegm_spec
    {tm : Tm} (hvalid : tm.Valid) (hyear : tm.tm_year < 10000) {fuel : Nat} (hfuel : 10000 ≤ fuel) :
    timegm fuel tm = some tm.seconds := by
  have hmday := hvalid.mday.2.trans (mon_lengths_le _ _)
  rcases hvalid with ⟨hy, ⟨hmon0, hmon⟩, -, ⟨hh0, hh⟩, ⟨hm0, hm⟩, ⟨hs0, hs⟩⟩
  obtain ⟨y, hy⟩ : ∃ y : Nat, tm.tm_year = y := ⟨tm.tm_year.toNat, by omega⟩
  obtain ⟨mon, hmon⟩ : ∃ mon : Nat, tm.tm_mon = mon := ⟨tm.tm_mon.toNat, by omega⟩
  have hyu : unsigned tm.tm_year = y := by
    rw [unsigned]
    omega
  have hmu : unsigned tm.tm_mon = mon := by
    rw [unsigned]
    omega
  have hyears := sum_loop (fun i => if is_leap i then 366 else 365)
    (fun i => daysBefore (i - 70)) 0 (show 70 ≤ y by omega)
    (by
      intro i hi hiy
      have : i + 1 - 70 = (i - 70) + 1 := by omega
      simp only [this, daysBefore]
      rw [is_leap_eq (by omega), show (1970 + (i - 70 : Nat) : Int) = i + 1900 by omega]
      rfl) (show y - 70 < fuel by omega)
  have hmonths := sum_loop (fun i => (mon_lengths (is_leap y)).getD i 0)
    (fun i => daysInto (is_leap y) i) (daysBefore (y - 70)) (show 0 ≤ mon by omega)
    (by
      intro i hi hiy
      have hlt : i < (mon_lengths (is_leap y)).length := by
        rw [mon_lengths_length]
        omega
      simp only [daysInto, List.sum_take_succ _ i hlt, List.getD_eq_getElem _ _ hlt])
    (show mon - 0 < fuel by omega)
  have hfirst : 0 + (daysBefore (y - 70) - daysBefore (70 - 70)) = daysBefore (y - 70) := by
    simp [daysBefore]
  have hstart : (y - 70 : Int).toNat = y - 70 := by omega
  rw [hfirst] at hyears
  rw [timegm, if_neg (by omega), hyu, hmu, hyears]
  dsimp only [Option.bind_eq_bind, Option.bind_some]
  rw [hmonths, Tm.seconds, hy, hmon, hstart, Int.toNat_natCast, ← is_leap_eq (by omega)]
  simp [daysInto]

end Timegm

end Time
end F32c
