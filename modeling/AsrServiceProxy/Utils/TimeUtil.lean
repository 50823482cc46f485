import AsrServiceProxy.Lib.CTime.Format
import AsrServiceProxy.Utils.StringUtil.Cleaning

namespace AsrServiceProxy.TimeUtil

open CMemory CTime

def kAipUtcTimeFormat : Bytes := ascii "%Y-%m-%d %H:%M:%S"

def kAipUtcTimeFormatLength : ℕ := 20

def timestampToUtcTime (timestamp : ℤ) : Bytes := strftime 128 kAipUtcTimeFormat (gmtime timestamp)

-- `_s_utc_local_time_offset_in_seconds` after a start at the time `now`.
-- `stack` is what an uninitialised `struct tm` holds.
def init (zone now : ℤ) (stack : Tm) : ℤ :=
  match strptime kAipUtcTimeFormat (timestampToUtcTime now) stack with
  | some (localNowTm, _) => StringUtil.intOfLong (mktime zone localNowTm - now)
  | none => StringUtil.intOfLong (mktime zone stack - now)

-- What `strptime` reads of a string whose first `length` bytes it has to read.
def readTo (length : ℕ) (utcTime : Bytes) (tm : Tm) : Option Tm :=
  match strptime kAipUtcTimeFormat (cstr utcTime) tm with
  | some (result, rest) =>
      if (cstr utcTime).length - rest.length = length then some result else none
  | none => none

-- `length` stands for `kAipUtcTimeFormatLength`.
def utcTimeToTimestampAt (length : ℕ) (zone offset : ℤ) (stack : Tm) (utcTime : Bytes) : ℤ :=
  match readTo length utcTime stack with
  | some tm => mktime zone tm - offset
  | none => -1

def utcTimeToTmAt (length : ℕ) (zone offset : ℤ) (tm : Tm) (utcTime : Bytes) : ℕ × Tm :=
  match readTo length utcTime tm with
  | some tm => (1, gmtime (mktime zone tm - offset))
  | none =>
      (0, { sec := 0, min := 0, hour := 0, mday := 0, mon := 0, year := 0, wday := 0, yday := 0 })

def utcTimeToTimestamp : ℤ → ℤ → Tm → Bytes → ℤ := utcTimeToTimestampAt kAipUtcTimeFormatLength

def utcTimeToTm : ℤ → ℤ → Tm → Bytes → ℕ × Tm := utcTimeToTmAt kAipUtcTimeFormatLength

-- Every `struct tm` is uninitialised, and `init` has run at the time `now`.
structure RoundTripsAt (length : ℕ) (zone now : ℤ) (stack : Tm) (t : ℤ) : Prop where
  timestamp :
    utcTimeToTimestampAt length zone (init zone now stack) stack (timestampToUtcTime t) = t
  tm : utcTimeToTmAt length zone (init zone now stack) stack (timestampToUtcTime t) =
    (1, gmtime t)

structure RoundTrips (zone now : ℤ) (stack : Tm) (t : ℤ) : Prop where
  timestamp : utcTimeToTimestamp zone (init zone now stack) stack (timestampToUtcTime t) = t
  tm : utcTimeToTm zone (init zone now stack) stack (timestampToUtcTime t) = (1, gmtime t)

def FourDigits (t : ℤ) : Prop := 1000 ≤ (gmtime t).year + 1900 ∧ (gmtime t).year + 1900 ≤ 9999

variable {zone now t : ℤ} {stack tm : Tm} {length : ℕ}

-- The text of a time in the range of the format.
def utcText (tm : Tm) : Bytes :=
  number 1 (tm.year + 1900) ++ 45 :: (number 2 ((tm.mon + 1 : ℕ) : ℤ) ++ 45 :: (number 2 tm.mday ++
    32 :: (number 2 tm.hour ++ 58 :: (number 2 tm.min ++ 58 :: number 2 tm.sec))))

theorem formatText_eq (tm : Tm) : formatText kAipUtcTimeFormat tm = utcText tm := by
  have hlast : formatText [37, 83] tm = number 2 tm.sec := List.append_nil _
  show number 1 (tm.year + 1900) ++ 45 :: (number 2 ((tm.mon : ℤ) + 1) ++ 45 ::
    (number 2 tm.mday ++ 32 :: (number 2 tm.hour ++ 58 :: (number 2 tm.min ++ 58 ::
      formatText [37, 83] tm)))) = _
  rw [hlast]
  rfl

theorem scan_utcText (hr : tm.InRange) (hyear : 1000 ≤ tm.year + 1900 ∧ tm.year + 1900 ≤ 9999) :
    scan kAipUtcTimeFormat (utcText tm) stack =
      some ({ tm with wday := stack.wday, yday := stack.yday }, []) := by
  obtain ⟨y, hy⟩ : ∃ y : ℕ, tm.year + 1900 = y := ⟨(tm.year + 1900).toNat, by omega⟩
  obtain ⟨hmon, hmday, hhour, hmin, hsec⟩ := hr
  have hhourText := number_two (n := tm.hour) (by omega)
  rw [utcText, hy]
  show scan [37, 89, 45, 37, 109, 45, 37, 100, 32, 37, 72, 58, 37, 77, 58, 37, 83] _ _ = _
  rw [scan_four (by omega), scan_literal (by decide), scan_two 1 12 rfl (by omega) (by decide),
    scan_literal (by decide), scan_two 1 31 rfl (by omega) (by decide), hhourText]
  show scan (32 :: _) (32 :: digit _ :: _) _ = _
  rw [scan_blank (digit_spec (by omega)).2.2]
  show scan _ ([digit (tm.hour / 10), digit (tm.hour % 10)] ++ 58 :: _) _ = _
  rw [← hhourText, scan_two 0 23 rfl (by omega) (by decide), scan_literal (by decide),
    scan_two 0 59 rfl (by omega) (by decide), scan_literal (by decide),
    ← List.append_nil (number 2 (tm.sec : ℤ)), scan_two 0 61 rfl (by omega) (by decide)]
  have hback : (y : ℤ) - 1900 = tm.year := by omega
  show some (Tm.mk tm.sec tm.min tm.hour tm.mday (tm.mon + 1 - 1) ((y : ℤ) - 1900) _ _, []) = _
  rw [hback, Nat.add_sub_cancel]

theorem utcText_text (hr : tm.InRange) (hyear : 1000 ≤ tm.year + 1900 ∧ tm.year + 1900 ≤ 9999) :
    (utcText tm).length = 19 ∧ cstr (utcText tm) = utcText tm := by
  obtain ⟨y, hy⟩ : ∃ y : ℕ, tm.year + 1900 = y := ⟨(tm.year + 1900).toNat, by omega⟩
  obtain ⟨hmon, hmday, hhour, hmin, hsec⟩ := hr
  obtain ⟨hyl, hyd⟩ := number_four_text (n := y) (by omega) (by omega)
  obtain ⟨hml, hmd⟩ := number_two_text (n := tm.mon + 1) (by omega)
  obtain ⟨hdl, hdd⟩ := number_two_text (n := tm.mday) (by omega)
  obtain ⟨hhl, hhd⟩ := number_two_text (n := tm.hour) (by omega)
  obtain ⟨hnl, hnd⟩ := number_two_text (n := tm.min) (by omega)
  obtain ⟨hsl, hsd⟩ := number_two_text (n := tm.sec) (by omega)
  have hzero : ∀ s : Bytes, (∀ b ∈ s, CTime.isdigit b = true) → (0 : UInt8) ∉ s := by
    intro s hs hmem
    exact absurd (hs 0 hmem) (by decide)
  rw [cstr_eq_self_iff, utcText, hy]
  constructor
  · simp only [List.length_append, List.length_cons, hyl, hml, hdl, hhl, hnl, hsl]
  · simp only [List.mem_append, List.mem_cons, hzero _ hyd, hzero _ hmd, hzero _ hdd, hzero _ hhd,
      hzero _ hnd, hzero _ hsd, or_false, false_or]
    decide

theorem timestampToUtcTime_eq (ht : FourDigits t) :
    timestampToUtcTime t = utcText (gmtime t) := by
  have hlength := (utcText_text (gmtime_inRange t) ht).1
  rw [timestampToUtcTime, strftime, formatText_eq, hlength]
  rfl

-- `strptime` reads all of the text, which is one byte shorter than the code takes it to be.
theorem strptime_timestamp (ht : FourDigits t) (stack : Tm) :
    ∃ tm, strptime kAipUtcTimeFormat (timestampToUtcTime t) stack = some (tm, []) ∧
      timegm tm = t := by
  rw [timestampToUtcTime_eq ht, strptime, scan_utcText (gmtime_inRange t) ht]
  exact ⟨_, rfl, timegm_gmtime t⟩

theorem readTo_timestamp (length : ℕ) (ht : FourDigits t) (stack : Tm) :
    ∃ tm, timegm tm = t ∧
      readTo length (timestampToUtcTime t) stack = if length = 19 then some tm else none := by
  obtain ⟨hlength, hcstr⟩ := utcText_text (gmtime_inRange t) ht
  obtain ⟨tm, htm, htime⟩ := strptime_timestamp ht stack
  refine ⟨tm, htime, ?_⟩
  rw [← timestampToUtcTime_eq ht] at hlength hcstr
  rw [readTo, hcstr, htm]
  show (if _ - 0 = length then _ else _) = _
  rw [Nat.sub_zero, hlength]
  by_cases h : length = 19
  · rw [if_pos h, if_pos h.symm]
  · rw [if_neg h, if_neg (Ne.symm h)]

theorem init_eq (hnow : FourDigits now) (hzone : -2 ^ 31 < zone ∧ zone < 2 ^ 31) (stack : Tm) :
    init zone now stack = -zone := by
  obtain ⟨tm, htm, htime⟩ := strptime_timestamp hnow stack
  have hoffset : now - zone - now = -zone := by omega
  unfold init
  rw [htm]
  show StringUtil.intOfLong (mktime zone tm - now) = _
  rw [mktime, htime, hoffset]
  unfold StringUtil.intOfLong
  exact Int.bmod_eq_of_le (by omega) (by omega)

-- A time zone's offset is below a day, and the clock is not beyond the year 9999.
theorem roundTripsAt_iff (ht : FourDigits t) (hnow : FourDigits now)
    (hzone : -2 ^ 31 < zone ∧ zone < 2 ^ 31) (stack : Tm) :
    RoundTripsAt length zone now stack t ↔ length = 19 := by
  obtain ⟨tm, htime, hread⟩ := readTo_timestamp length ht stack
  by_cases h : length = 19
  · have hback : t - zone - -zone = t := by omega
    refine iff_of_true ⟨?_, ?_⟩ h
    · rw [utcTimeToTimestampAt, hread, if_pos h, init_eq hnow hzone]
      show timegm tm - zone - -zone = t
      rw [htime, hback]
    · rw [utcTimeToTmAt, hread, if_pos h, init_eq hnow hzone]
      show (1, gmtime (timegm tm - zone - -zone)) = _
      rw [htime, hback]
  · refine iff_of_false (fun hrt => ?_) h
    have htm := hrt.tm
    rw [utcTimeToTmAt, hread, if_neg h] at htm
    cases htm

def midnight : Tm :=
  { sec := 0, min := 0, hour := 0, mday := 1, mon := 0, year := 70, wday := 4, yday := 0 }

theorem fourDigits_epoch : FourDigits 0 := ⟨by decide, by decide⟩

-- "1970-01-01 00:00:00"
theorem not_roundTrips_epoch : ¬RoundTrips 0 0 midnight 0 := by
  intro h
  have hlength := (roundTripsAt_iff fourDigits_epoch fourDigits_epoch (by decide) midnight).mp
    ⟨h.timestamp, h.tm⟩
  exact absurd hlength (by decide)

-- The code's constant is 20.
theorem not_roundTrips (zone now : ℤ) (stack : Tm) (t : ℤ) (ht : FourDigits t) :
    ¬RoundTrips zone now stack t := by
  intro hrt
  have htm := hrt.tm
  obtain ⟨tm, -, hread⟩ := readTo_timestamp kAipUtcTimeFormatLength ht stack
  rw [utcTimeToTm, utcTimeToTmAt, hread, if_neg (by decide)] at htm
  cases htm

theorem not_roundTrips_billion :
    ¬RoundTrips 28800 1700000000 midnight 1000000000 :=
  not_roundTrips 28800 1700000000 midnight 1000000000 ⟨by decide, by decide⟩

end AsrServiceProxy.TimeUtil
