import DuckOs.FatDirectories

namespace DuckOs.TimeSpecs
open AddressModel FatDates FatDirectories

def nsecPerSec : ℕ := 1_000_000_000
def clockFrequency : ℕ := 1250_0000

def TimeSpec.msec (t : TimeSpec) : ℕ := t.tvNsec / 1_000_000 + t.tvSec * 1000

def TimeSpec.sec (t : TimeSpec) : ℕ := wrappingAdd t.tvSec (t.tvNsec / nsecPerSec)

section Sleeping

def currentTime (ticks : ℕ) : ℕ := ticks / clockFrequency

/-- The reading of the clock that ends the loop; `k` readings were made before. -/
def sleepLoop (clock : ℕ → ℕ) (endTime : ℕ) : ℕ → ℕ → Option ℕ
  | 0, _ => none
  | fuel + 1, k =>
    if currentTime (clock k) < endTime then sleepLoop clock endTime fuel (k + 1) else some k

def sysNanosleep (clock : ℕ → ℕ) (req : TimeSpec) (fuel : ℕ) : Option ℕ :=
  sleepLoop clock (wrappingAdd (currentTime (clock 0)) (TimeSpec.sec req)) fuel 1

/-- The readings of a 64-bit counter that does not run over while the call waits. -/
structure Clock where
  ticks : ℕ → ℕ
  mono : Monotone ticks
  word : ∀ k, ticks k < wordSize

/-- Whatever the later readings are, the call returns after the requested time. -/
def SleepsLongEnough (start : ℕ) (req : TimeSpec) : Prop :=
  ∀ clock : Clock, clock.ticks 0 = start → ∀ fuel k, sysNanosleep clock.ticks req fuel = some k →
    (req.tvSec * nsecPerSec + req.tvNsec) * clockFrequency ≤
      (clock.ticks k - clock.ticks 0) * nsecPerSec

theorem sleepLoop_some {clock : ℕ → ℕ} {endTime fuel i k : ℕ}
    (h : sleepLoop clock endTime fuel i = some k) : endTime ≤ clock k / clockFrequency := by
  induction fuel generalizing i with
  | zero => cases h
  | succ fuel ih =>
    unfold sleepLoop at h
    split_ifs at h with hlt
    · exact ih h
    · cases h
      exact Nat.le_of_not_lt hlt

/-- The start, the interval and the end are each rounded down to seconds: the call waits long enough
if nothing is lost by that and the end does not run over, or if the clock cannot reach the end. -/
theorem sleeps_long_enough_iff (start : ℕ) (word : start < wordSize) (req : TimeSpec) :
    SleepsLongEnough start req ↔
      let secs := req.tvSec + req.tvNsec / nsecPerSec
      wordSize ≤ (start / clockFrequency + secs) % wordSize * clockFrequency ∨
        start / clockFrequency + secs < wordSize ∧ req.tvNsec % nsecPerSec = 0 ∧
          (secs = 0 ∨ start % clockFrequency = 0) := by
  have hend : wrappingAdd (currentTime start) (TimeSpec.sec req) =
      (start / clockFrequency + (req.tvSec + req.tvNsec / nsecPerSec)) % wordSize :=
    Nat.add_mod_mod ..
  unfold SleepsLongEnough
  constructor
  · intro h
    by_contra hcond
    obtain ⟨last,hlast⟩ : ∃ last, last = max start ((start / clockFrequency +
      (req.tvSec + req.tvNsec / nsecPerSec)) % wordSize * clockFrequency) := ⟨_,rfl⟩
    have hreach : wrappingAdd (currentTime start) (TimeSpec.sec req) ≤ last / clockFrequency := by
      rw [hend]
      unfold clockFrequency at *
      omega
    have hsleep := h ⟨fun k => if k = 0 then start else last,?_,?_⟩ rfl 1 1
      (if_neg (Nat.not_lt.mpr hreach))
    · unfold nsecPerSec clockFrequency wordSize at *
      simp only [one_ne_zero,if_true,if_false] at hsleep
      omega
    · have hle : start ≤ last := hlast ▸ le_max_left ..
      apply monotone_nat_of_le_succ
      rintro (_ | k)
      · exact hle
      · exact le_rfl
    · intro k
      unfold clockFrequency wordSize at *
      split_ifs <;> omega
  · rintro hcond clock rfl fuel k hk
    have hlast := sleepLoop_some hk
    have hword := clock.word k
    rw [hend] at hlast
    unfold nsecPerSec clockFrequency wordSize at *
    omega

theorem sleeps_one_second : SleepsLongEnough 0 ⟨1,0⟩ :=
  (sleeps_long_enough_iff 0 (by decide) ⟨1,0⟩).mpr (.inr (by decide))

/-- A request for half a second returns at once. -/
theorem sleeps_no_half_second : ¬ SleepsLongEnough 0 ⟨0,500_000_000⟩ := by
  intro h
  have hsleep := h ⟨fun _ => 0,monotone_const,fun _ => by decide⟩ rfl 1 1 rfl
  exact absurd hsleep (by decide)

end Sleeping

section Calendar

def isLeap (year : ℕ) : Bool := decide (4 ∣ year ∧ (¬ 100 ∣ year ∨ 400 ∣ year))

def daysOfMonth (leap : Bool) (month : ℕ) : ℕ :=
  if month = 2 then if leap then 29 else 28 else if month ∈ [4, 6, 9, 11] then 30 else 31

def daysOfYear (year : ℕ) : ℕ := if isLeap year then 366 else 365

/-- From 1970-01-01 on. -/
def daysUntil (year month day : ℕ) : ℕ :=
  ∑ y ∈ Finset.Ico 1970 year, daysOfYear y +
    ∑ m ∈ Finset.Ico 1 month, daysOfMonth (isLeap year) m + (day - 1)

theorem leapYear_eq (year : ℕ) : leapYear year = isLeap year := by
  unfold leapYear isLeap
  rw [Bool.eq_iff_iff]
  simp only [Int.tmod_eq_emod_of_nonneg (Int.natCast_nonneg year),Bool.and_eq_true,
    Bool.or_eq_true,beq_iff_eq,bne_iff_ne,decide_eq_true_eq]
  omega

theorem yearToDayCount_succ {year : ℕ} (h : 1 ≤ year) : yearToDayCount (year + 1 : ℕ) =
    .ok (year / 4 - year / 100 + year / 400 - 477 + (year - 1969) * 365) := by
  have hcnt : leapYearCnt year = .ok (year / 4 - year / 100 + year / 400) := by
    unfold leapYearCnt
    rw [if_pos (by omega)]
    simp only [Int.tdiv_eq_ediv_of_nonneg (Int.natCast_nonneg year)]
  have hpred : ((year + 1 : ℕ) : ℤ) - 1 = year := by omega
  have hdays : ((year + 1 : ℕ) : ℤ) - 1970 = year - 1969 := by omega
  unfold yearToDayCount
  rw [hpred,hcnt,hdays]
  rfl

theorem yearToDayCount_eq {year : ℕ} (h : 1970 ≤ year) :
    yearToDayCount year = .ok (∑ y ∈ Finset.Ico 1970 year, daysOfYear y : ℕ) := by
  induction year,h using Nat.le_induction with
  | base => decide
  | succ year h ih =>
    obtain ⟨before,rfl⟩ : ∃ before, year = before + 1 := ⟨year - 1,by omega⟩
    rw [yearToDayCount_succ (by omega)] at ih
    have hsum := Except.ok.inj ih
    rw [yearToDayCount_succ (by omega),Finset.sum_Ico_succ_top h]
    congr 1
    generalize ∑ y ∈ Finset.Ico 1970 (before + 1), daysOfYear y = days at *
    have hdiv : ∀ n : ℕ, ((before + 1 : ℕ) : ℤ) / n =
      before / n + if n ∣ before + 1 then 1 else 0 :=
      fun n => by exact_mod_cast Nat.succ_div
    have h4 := hdiv 4
    have h100 := hdiv 100
    have h400 := hdiv 400
    unfold daysOfYear isLeap
    simp only [decide_eq_true_eq]
    split_ifs at * <;> omega

theorem monthToDayCount_eq (leap : Bool) : ∀ month < 12, monthToDayCount (month : ℕ) leap =
    .ok (∑ m ∈ Finset.Ico 1 (month + 1), daysOfMonth leap m : ℕ) := by
  cases leap <;> decide

/-- A date, a time of day and hundredths of a second, as FAT packs them. -/
structure Stamp where
  date : ℕ
  time : ℕ
  tenth : ℕ

namespace Stamp

def year (s : Stamp) : ℕ := 1980 + s.date / 2 ^ 9
def month (s : Stamp) : ℕ := s.date / 2 ^ 5 % 2 ^ 4
def day (s : Stamp) : ℕ := s.date % 2 ^ 5

structure Valid (s : Stamp) : Prop where
  month : s.month ∈ Finset.Icc 1 12
  day : s.day ∈ Finset.Icc 1 (daysOfMonth (isLeap s.year) s.month)
  hour : s.time / 2 ^ 11 < 24
  minute : s.time / 2 ^ 5 % 2 ^ 6 < 60
  second : s.time % 2 ^ 5 < 30
  tenth : s.tenth < 200

/-- Milliseconds from 1970-01-01 on. -/
def millis (s : Stamp) : ℕ :=
  (((daysUntil s.year s.month s.day * 24 + s.time / 2 ^ 11) * 60 + s.time / 2 ^ 5 % 2 ^ 6) * 60 +
    2 * (s.time % 2 ^ 5)) * 1000 + 10 * s.tenth

def DenotedBy (s : Stamp) (t : TimeSpec) : Prop :=
  TimeSpec.msec t = s.millis ∧ t.tvNsec < 1_000_000_000

theorem fatToUnixTime_eq {s : Stamp} (h : s.Valid) :
    fatToUnixTime s.date s.time s.tenth = .ok s.millis := by
  obtain ⟨hmonth,hlast⟩ := Finset.mem_Icc.mp h.month
  obtain ⟨hday,-⟩ := Finset.mem_Icc.mp h.day
  have hhour := h.hour
  have hpred : ∀ n, 1 ≤ n → n < 2 ^ 16 → pred16 n = n - 1 := by
    intro n hpos hlt
    unfold pred16
    omega
  have hm := monthToDayCount_eq (isLeap s.year) (s.month - 1) (by omega)
  rw [Nat.sub_add_cancel hmonth] at hm
  have hrun : fatToUnixTime s.date s.time s.tenth = (do
      let years ← yearToDayCount s.year
      let months ← monthToDayCount (pred16 s.month) (leapYear s.year)
      pure ((years + months + pred16 s.day) * 86400000 +
        (((s.time / 2 ^ 11 % 2 ^ 5 : ℕ) * 60 + (s.time / 2 ^ 5 % 2 ^ 6 : ℕ)) * 60 +
          (s.time % 2 ^ 5 : ℕ) * 2) * 1000 + s.tenth * 10)) := rfl
  rw [hrun,yearToDayCount_eq (by unfold year; omega),hpred _ hmonth (by omega),leapYear_eq,hm,
    hpred _ hday (by unfold day; omega),Nat.mod_eq_of_lt (hhour.trans (by decide))]
  refine congrArg Except.ok ?_
  unfold millis daysUntil
  push_cast
  ring

/-- The remainder of a second is stored as if it were nanoseconds. -/
theorem denotedBy_iff (s : Stamp) :
    s.DenotedBy (unixTimeToTimespec s.millis) ↔ s.tenth % 100 = 0 := by
  have hrest : s.millis % 1000 = 10 * (s.tenth % 100) :=
    (Nat.mul_add_mod_self_right ..).trans (Nat.mul_mod_mul_left 10 s.tenth 100)
  unfold DenotedBy TimeSpec.msec unixTimeToTimespec
  rw [if_neg (by omega),Int.toNat_natCast]
  dsimp only
  omega

end Stamp

theorem bit_to_timespec_denotes_iff (entry : ShortDirEntry)
    (acc : Stamp.Valid ⟨entry.lstAccDate, 0, 0⟩)
    (wrt : Stamp.Valid ⟨entry.wrtDate, entry.wrtTime, 0⟩)
    (crt : Stamp.Valid ⟨entry.crtDate, entry.crtTime, entry.crtTimeTenth⟩) :
    (∃ times, entry.bitToTimespec = .ok times ∧
      Stamp.DenotedBy ⟨entry.lstAccDate, 0, 0⟩ times.1 ∧
      Stamp.DenotedBy ⟨entry.wrtDate, entry.wrtTime, 0⟩ times.2.1 ∧
      Stamp.DenotedBy ⟨entry.crtDate, entry.crtTime, entry.crtTimeTenth⟩ times.2.2) ↔
        entry.crtTimeTenth % 100 = 0 := by
  have hrun := ShortDirEntry.bitToTimespec.eq_1 entry
  rw [Stamp.fatToUnixTime_eq acc,Stamp.fatToUnixTime_eq wrt,Stamp.fatToUnixTime_eq crt] at hrun
  rw [hrun]
  constructor
  · rintro ⟨_,⟨⟩,-,-,h⟩
    exact (Stamp.denotedBy_iff _).mp h
  · intro h
    exact ⟨_,rfl,(Stamp.denotedBy_iff _).mpr rfl,(Stamp.denotedBy_iff _).mpr rfl,
      (Stamp.denotedBy_iff _).mpr h⟩

/-- Created in the last second of a leap day, read and written at the start of that year. -/
def leapDayEntry (tenth : ℕ) : ShortDirEntry :=
    ⟨[], 0, tenth, 49021, 10333, 10273, 0, 0, 10273, 0, 0⟩

theorem leap_day_denoted : ∃ times, (leapDayEntry 100).bitToTimespec = .ok times ∧
    Stamp.DenotedBy ⟨10273, 0, 0⟩ times.1 ∧ Stamp.DenotedBy ⟨10273, 0, 0⟩ times.2.1 ∧
    Stamp.DenotedBy ⟨10333, 49021, 100⟩ times.2.2 :=
  (bit_to_timespec_denotes_iff (leapDayEntry 100) (by constructor <;> decide)
    (by constructor <;> decide) (by constructor <;> decide)).mpr rfl

/-- Half a second is stored as 500 nanoseconds. -/
theorem half_second_lost : ∃ times, (leapDayEntry 50).bitToTimespec = .ok times ∧
    TimeSpec.msec times.2.2 + 500 = Stamp.millis ⟨10333, 49021, 50⟩ := ⟨_,rfl,by decide⟩

end Calendar

section Dates

theorem daysOfMonth_pos (leap : Bool) (month : ℕ) : 0 < daysOfMonth leap month := by
  unfold daysOfMonth
  split_ifs <;> decide

/-- A date of the Gregorian calendar. The months and the days count from 0. -/
structure Date where
  year : ℕ
  month : ℕ
  day : ℕ
  since : 1970 ≤ year
  inYear : month < 12
  inMonth : day < daysOfMonth (isLeap year) (month + 1)

namespace Date

def epoch : Date := ⟨1970, 0, 0, le_rfl, by decide, by decide⟩

def next (d : Date) : Date :=
  if h : d.day + 1 < daysOfMonth (isLeap d.year) (d.month + 1) then
    ⟨d.year, d.month, d.day + 1, d.since, d.inYear, h⟩
  else if h : d.month + 1 < 12 then
    ⟨d.year, d.month + 1, 0, d.since, h, daysOfMonth_pos _ _⟩
  else ⟨d.year + 1, 0, 0, Nat.le_succ_of_le d.since, by decide, daysOfMonth_pos _ _⟩

/-- The days of a date as `fat_to_unix_time` adds them up, in `i64` as long as nothing overflows. -/
def dayCount (d : Date) : Except Panic ℤ := do
  let years ← yearToDayCount d.year
  let months ← monthToDayCount d.month (leapYear d.year)
  pure (years + months + d.day)

def days (d : Date) : ℕ := daysUntil d.year (d.month + 1) (d.day + 1)

theorem dayCount_eq (d : Date) : d.dayCount = .ok d.days := by
  unfold dayCount
  rw [yearToDayCount_eq d.since,leapYear_eq,monthToDayCount_eq _ _ d.inYear]
  refine congrArg Except.ok ?_
  unfold days daysUntil
  push_cast
  rfl

theorem days_next (d : Date) : d.next.days = d.days + 1 := by
  have hday := d.inMonth
  unfold next
  split_ifs with hmonth hyear
  · unfold days daysUntil
    dsimp only
    omega
  · unfold days daysUntil
    dsimp only
    rw [Finset.sum_Ico_succ_top (Nat.le_add_left 1 d.month)]
    omega
  · obtain ⟨year,month,day,since,inYear,inMonth⟩ := d
    obtain rfl : month = 11 := by dsimp only at hyear; omega
    have hlast : day + 1 = 31 := by
      have hdec : daysOfMonth (isLeap year) 12 = 31 := rfl
      dsimp only [Nat.reduceAdd] at hmonth hday
      omega
    have hsum : ∑ m ∈ Finset.Ico 1 12, daysOfMonth (isLeap year) m + 31 = daysOfYear year := by
      unfold daysOfYear
      cases isLeap year <;> rfl
    unfold days daysUntil
    dsimp only [Nat.reduceAdd]
    rw [Finset.sum_Ico_succ_top since,Finset.Ico_self,Finset.sum_empty]
    omega

theorem exists_before (d : Date) (h : d ≠ epoch) : ∃ before : Date, before.next = d := by
  obtain ⟨year,month,day,since,inYear,inMonth⟩ := d
  cases day with
  | succ day => exact ⟨⟨year,month,day,since,inYear,by omega⟩,dif_pos inMonth⟩
  | zero =>
    cases month with
    | succ month =>
      have hlast := daysOfMonth_pos (isLeap year) (month + 1)
      refine ⟨⟨year,month,daysOfMonth (isLeap year) (month + 1) - 1,since,by omega,by omega⟩,?_⟩
      exact (dif_neg (by dsimp only; omega)).trans (dif_pos inYear)
    | zero =>
      cases year with
      | zero => cases since
      | succ year =>
        have hlt : 1970 ≤ year := by
          by_contra hge
          obtain rfl : year = 1969 := by omega
          exact h rfl
        exact ⟨⟨year,11,30,hlt,by decide,Nat.lt_succ_self 30⟩,rfl⟩

theorem iterate_days (d : Date) : next^[d.days] epoch = d := by
  induction hn : d.days generalizing d with
  | zero =>
    by_contra hne
    obtain ⟨before,rfl⟩ := exists_before d (Ne.symm hne)
    rw [days_next] at hn
    omega
  | succ n ih =>
    have hne : d ≠ epoch := by
      rintro rfl
      cases hn
    obtain ⟨before,rfl⟩ := exists_before d hne
    rw [days_next] at hn
    rw [Function.iterate_succ_apply',ih before (by omega)]

/-- The count is 0 on 1970-01-01 and `n` on the date that follows it `n` times; the next date has
one day more. -/
theorem day_count_is_days_since : epoch.dayCount = .ok 0 ∧ ∀ d : Date, ∃ n : ℕ,
    next^[n] epoch = d ∧ d.dayCount = .ok n ∧ d.next.dayCount = .ok (n + 1) := by
  refine ⟨dayCount_eq epoch,fun d => ⟨d.days,iterate_days d,dayCount_eq d,?_⟩⟩
  rw [dayCount_eq,days_next]
  rfl

end Date

end Dates

end DuckOs.TimeSpecs
