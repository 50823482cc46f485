import AsrServiceProxy.Lib.CMemory
import Mathlib.Algebra.BigOperators.Group.List.Basic
import Mathlib.Algebra.Ring.Int.Defs

-- Broken-down time of the C library, in the Gregorian calendar and in zones
-- that are always as many seconds east of UTC.
namespace CTime

open CMemory

-- `struct tm`: the months count from 0, the years from 1900.
structure Tm where
  sec : ℕ
  min : ℕ
  hour : ℕ
  mday : ℕ
  mon : ℕ
  year : ℤ
  wday : ℕ
  yday : ℕ
deriving DecidableEq, Repr

def isLeap (year : ℤ) : Bool := year % 4 = 0 && (year % 100 ≠ 0 || year % 400 = 0)

def monthLengths (leap : Bool) : List ℕ :=
  [31, if leap then 29 else 28, 31, 30, 31, 30, 31, 31, 30, 31, 30, 31]

-- From 1 January of the year 1 to 1 January of `year`.
def daysBeforeYear (year : ℤ) : ℤ :=
  365 * (year - 1) + (year - 1) / 4 - (year - 1) / 100 + (year - 1) / 400

-- The days from there to 1 January 1970.
def epochDays : ℤ := 719162

-- The year of a day, counted from 1 January of the year 1, and the day in it.
def yearOfDays (days : ℤ) : ℤ × ℤ :=
  let inEra := days % 146097
  let century := min (inEra / 36524) 3
  let inCentury := inEra - 36524 * century
  let inCycle := inCentury % 1461
  let yearOfCycle := min (inCycle / 365) 3
  (400 * (days / 146097) + 100 * century + 4 * (inCentury / 1461) + yearOfCycle + 1,
    inCycle - 365 * yearOfCycle)

-- The part of a list of lengths in which a position lies, and where in it.
def splitDays : List ℕ → ℕ → ℕ × ℕ
  | [], days => (0, days)
  | length :: rest, days =>
      if days < length then (0, days)
      else ((splitDays rest (days - length)).1 + 1, (splitDays rest (days - length)).2)

def gmtime (t : ℤ) : Tm :=
  let days := t / 86400
  let secs := (t % 86400).toNat
  let year := (yearOfDays (days + epochDays)).1
  let yday := (yearOfDays (days + epochDays)).2.toNat
  let day := splitDays (monthLengths (isLeap year)) yday
  { sec := secs % 60
    min := secs / 60 % 60
    hour := secs / 3600
    mday := day.2 + 1
    mon := day.1
    year := year - 1900
    wday := ((days + 4) % 7).toNat
    yday := yday }

def Tm.dayOfYear (tm : Tm) : ℕ :=
  ((monthLengths (isLeap (tm.year + 1900))).take tm.mon).sum + (tm.mday - 1)

def Tm.days (tm : Tm) : ℤ := daysBeforeYear (tm.year + 1900) - epochDays + tm.dayOfYear

-- The seconds since the epoch, as POSIX defines them from the members.
def timegm (tm : Tm) : ℤ := 86400 * tm.days + 3600 * tm.hour + 60 * tm.min + tm.sec

def mktime (zone : ℤ) (tm : Tm) : ℤ := timegm tm - zone

structure Tm.InRange (tm : Tm) : Prop where
  mon : tm.mon < 12
  mday : 1 ≤ tm.mday ∧ tm.mday ≤ 31
  hour : tm.hour < 24
  min : tm.min < 60
  sec : tm.sec < 60

theorem isLeap_iff (year : ℤ) :
    isLeap year = true ↔ year % 4 = 0 ∧ (year % 100 ≠ 0 ∨ year % 400 = 0) := by
  simp [isLeap]

-- The year in terms of the cycles of 400, 100 and 4 years; the last day of a
-- cycle is the one that the shorter cycles in it do not reach.
theorem yearOfDays_spec (days : ℤ) :
    daysBeforeYear (yearOfDays days).1 + (yearOfDays days).2 = days ∧
      0 ≤ (yearOfDays days).2 ∧
      ((yearOfDays days).2 < 365 ∨
        (yearOfDays days).2 = 365 ∧ isLeap (yearOfDays days).1 = true) := by
  unfold yearOfDays
  simp only
  generalize hq : days / 146097 = q
  generalize hr : days % 146097 = r
  have hdays : days = 146097 * q + r ∧ 0 ≤ r ∧ r < 146097 := by omega
  generalize hb : min (r / 36524) 3 = b
  have hcentury : 0 ≤ b ∧ b ≤ 3 ∧ 0 ≤ r - 36524 * b ∧
      (r - 36524 * b < 36524 ∨ b = 3 ∧ r - 36524 * b = 36524) := by omega
  generalize hr1 : r - 36524 * b = r1 at *
  generalize hc : r1 / 1461 = c
  generalize hr2 : r1 % 1461 = r2
  have hcycle : r1 = 1461 * c + r2 ∧ 0 ≤ r2 ∧ r2 < 1461 ∧ 0 ≤ c ∧
      (c < 24 ∨ c = 24 ∧ (r2 < 1460 ∨ b = 3)) := by omega
  generalize he : min (r2 / 365) 3 = e
  have hyear : 0 ≤ e ∧ e ≤ 3 ∧ 0 ≤ r2 - 365 * e ∧
      (r2 - 365 * e < 365 ∨ r2 - 365 * e = 365 ∧ e = 3 ∧ r2 = 1460) := by omega
  generalize hyday : r2 - 365 * e = yday at *
  have hquarter : (400 * q + 100 * b + 4 * c + e + 1 - 1) / 4 = 100 * q + 25 * b + c := by omega
  have hhundred : (400 * q + 100 * b + 4 * c + e + 1 - 1) / 100 = 4 * q + b := by omega
  have hfour : (400 * q + 100 * b + 4 * c + e + 1 - 1) / 400 = q := by omega
  rw [isLeap_iff, daysBeforeYear, hquarter, hhundred, hfour]
  refine ⟨by omega, by omega, ?_⟩
  rcases hyear.2.2.2 with hlt | ⟨hlast, hthree, hend⟩
  · exact .inl hlt
  · refine .inr ⟨hlast, by omega, ?_⟩
    rcases hcycle.2.2.2.2 with hlt | ⟨hc24, hr | hb3⟩
    · exact .inl (by omega)
    · omega
    · exact .inr (by omega)

theorem splitDays_sum (lengths : List ℕ) (days : ℕ) :
    (lengths.take (splitDays lengths days).1).sum + (splitDays lengths days).2 = days := by
  induction lengths generalizing days with
  | nil => simp [splitDays]
  | cons length rest ih =>
      rw [splitDays]
      split
      next => simp
      next hge =>
        have hrest := ih (days - length)
        rw [List.take_succ_cons, List.sum_cons]
        simp only
        omega

theorem splitDays_lt {lengths : List ℕ} {days bound : ℕ} (hdays : days < lengths.sum)
    (hbound : ∀ l ∈ lengths, l ≤ bound) :
    (splitDays lengths days).1 < lengths.length ∧ (splitDays lengths days).2 < bound := by
  induction lengths generalizing days with
  | nil => exact absurd hdays (Nat.not_lt_zero days)
  | cons length rest ih =>
      rw [List.forall_mem_cons] at hbound
      rw [List.sum_cons] at hdays
      rw [splitDays, List.length_cons]
      split
      next hlt => exact ⟨Nat.succ_pos _, Nat.lt_of_lt_of_le hlt hbound.1⟩
      next hge =>
        have hrest : days - length < rest.sum := by omega
        obtain ⟨hmon, hday⟩ := ih hrest hbound.2
        exact ⟨Nat.succ_lt_succ hmon, hday⟩

theorem sum_monthLengths (leap : Bool) :
    (monthLengths leap).sum = if leap then 366 else 365 := by
  cases leap <;> rfl

theorem monthLengths_le (leap : Bool) : ∀ l ∈ monthLengths leap, l ≤ 31 := by
  cases leap <;> simp [monthLengths]

theorem gmtime_day (t : ℤ) : (gmtime t).days = t / 86400 ∧ (gmtime t).mon < 12 ∧
    1 ≤ (gmtime t).mday ∧ (gmtime t).mday ≤ 31 := by
  obtain ⟨hdays, hpos, hyday⟩ := yearOfDays_spec (t / 86400 + epochDays)
  have hyear : (gmtime t).year + 1900 = (yearOfDays (t / 86400 + epochDays)).1 :=
    Int.sub_add_cancel _ _
  generalize hy : (yearOfDays (t / 86400 + epochDays)).1 = year at *
  generalize hd : (yearOfDays (t / 86400 + epochDays)).2 = yday at *
  have hmon : (gmtime t).mon = (splitDays (monthLengths (isLeap year)) yday.toNat).1 := by
    rw [gmtime, hy, hd]
  have hmday : (gmtime t).mday = (splitDays (monthLengths (isLeap year)) yday.toNat).2 + 1 := by
    rw [gmtime, hy, hd]
  have hlt : yday.toNat < (monthLengths (isLeap year)).sum := by
    rw [sum_monthLengths]
    rcases hyday with hlt | ⟨heq, hleap⟩
    · split <;> omega
    · rw [if_pos hleap]
      omega
  have hsum := splitDays_sum (monthLengths (isLeap year)) yday.toNat
  obtain ⟨hm, hd31⟩ := splitDays_lt hlt (monthLengths_le (isLeap year))
  refine ⟨?_, ?_, ?_, ?_⟩
  · rw [Tm.days, Tm.dayOfYear, hyear, hmon, hmday, Nat.add_sub_cancel, hsum]
    omega
  · rw [hmon]
    exact hm
  · omega
  · omega

theorem gmtime_inRange (t : ℤ) : (gmtime t).InRange := by
  obtain ⟨-, hmon, hmday⟩ := gmtime_day t
  refine ⟨hmon, hmday, ?_, ?_, ?_⟩
  · show (t % 86400).toNat / 3600 < 24
    omega
  · exact Nat.mod_lt _ (by decide)
  · exact Nat.mod_lt _ (by decide)

-- The broken-down time of an instant denotes that instant.
theorem timegm_gmtime (t : ℤ) : timegm (gmtime t) = t := by
  have hdays := (gmtime_day t).1
  have hhour : (gmtime t).hour = (t % 86400).toNat / 3600 := rfl
  have hmin : (gmtime t).min = (t % 86400).toNat / 60 % 60 := rfl
  have hsec : (gmtime t).sec = (t % 86400).toNat % 60 := rfl
  rw [timegm, hdays, hhour, hmin, hsec]
  omega

end CTime
