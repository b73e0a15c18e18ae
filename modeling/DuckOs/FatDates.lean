import DuckOs.AddressModel

namespace DuckOs.FatDates
open AddressModel

structure TimeSpec where
  tvSec : ℕ
  tvNsec : ℕ
  deriving DecidableEq

def leapYear (year : ℤ) : Bool :=
  year.tmod 4 == 0 && (year.tmod 100 != 0 || year.tmod 400 == 0)

def leapYearCnt (year : ℤ) : Except Panic ℤ :=
  if 1 ≤ year then .ok (year.tdiv 4 - year.tdiv 100 + year.tdiv 400) else .error .assertion

def yearToDayCount (year : ℤ) : Except Panic ℤ := do
  let upTo ← leapYearCnt (year - 1)
  let before ← leapYearCnt (1970 - 1)
  pure (upTo - before + (year - 1970) * 365)

def dayPerMonth : List ℤ := [31, 28, 31, 30, 31, 30, 31, 31, 30, 31, 30, 31]

def monthToDayCount (month : ℤ) (leap : Bool) : Except Panic ℤ :=
  (List.range month.toNat).foldlM (fun ret i =>
    match dayPerMonth[i]? with
    | none => .error .explicit
    | some days => .ok (ret + (days + if i = 1 ∧ leap then 1 else 0))) 0

def pred16 (n : ℕ) : ℕ := (n + (2 ^ 16 - 1)) % 2 ^ 16

def fatToUnixTime (date time tenth : ℕ) : Except Panic ℤ := do
  let year : ℤ := ((1980 + date / 2 ^ 9 : ℕ) : ℤ)
  let month : ℤ := (pred16 (date / 2 ^ 5 % 2 ^ 4) : ℤ)
  let day : ℤ := (pred16 (date % 2 ^ 5) : ℤ)
  let hr : ℤ := ((time / 2 ^ 11 % 2 ^ 5 : ℕ) : ℤ)
  let min : ℤ := ((time / 2 ^ 5 % 2 ^ 6 : ℕ) : ℤ)
  let sec : ℤ := ((time % 2 ^ 5 : ℕ) : ℤ)
  let millisec : ℤ := (tenth : ℤ) * 10
  let years ← yearToDayCount year
  let months ← monthToDayCount month (leapYear year)
  pure ((years + months + day) * 86400000 + ((hr * 60 + min) * 60 + sec * 2) * 1000 + millisec)

def unixTimeToTimespec (unixTime : ℤ) : TimeSpec :=
  if unixTime < 0 then ⟨0, 0⟩ else ⟨unixTime.toNat / 1000, unixTime.toNat % 1000⟩

end DuckOs.FatDates
