import AsrServiceProxy.Lib.CMemory

-- The absolute times that the timed waits pass to `pthread_cond_timedwait`.
namespace AsrServiceProxy

open CMemory

-- What `gettimeofday` stores; `time(NULL)` returns its seconds.
structure Timeval where
  sec : ℤ
  usec : ℤ
  sec_range : 0 ≤ sec ∧ sec < 2 ^ 63
  usec_range : 0 ≤ usec ∧ usec < 1000000

structure Timespec where
  sec : ℤ
  nsec : ℤ
deriving DecidableEq, Repr

def Timeval.nanoseconds (now : Timeval) : ℤ := now.sec * 1000000000 + now.usec * 1000

def Timespec.nanoseconds (ts : Timespec) : ℤ := ts.sec * 1000000000 + ts.nsec

def secondsDeadline (now : Timeval) (timeOut : ℤ) : Option Timespec := do
  let sec ← signed 64 (now.sec + timeOut.tdiv 1000)
  let nsec ← signed 64 (timeOut.tmod 1000 * 1000000)
  return { sec := sec, nsec := nsec }

def CSemaphore.deadline (now : Timeval) (timeOut : ℤ) : Option Timespec :=
  secondsDeadline now timeOut

def CEvent.deadline (now : Timeval) (timeOut : ℤ) : Option Timespec :=
  secondsDeadline now timeOut

-- The sum is a `long` that is stored in the `int` `nsec`.
def CCritSec.deadline (now : Timeval) (timeoutMs : ℤ) : Option Timespec := do
  let micros ← signed 64 (now.usec * 1000)
  let millis ← signed 32 (timeoutMs.tmod 1000 * 1000000)
  let sum ← signed 64 (micros + millis)
  let nsec ← signed 32 sum
  let carried ← signed 64 (now.sec + nsec.tdiv 1000000000)
  let sec ← signed 64 (carried + timeoutMs.tdiv 1000)
  return { sec := sec, nsec := nsec.tmod 1000000000 }

-- Nothing overflows, and the deadline is no earlier than the time-out asks.
def Suffices (now : Timeval) (timeOut : ℤ) (deadline : Option Timespec) : Prop :=
  ∃ ts, deadline = some ts ∧ 0 ≤ ts.nsec ∧ ts.nsec < 1000000000 ∧
    now.nanoseconds + timeOut * 1000000 ≤ ts.nanoseconds

variable {now : Timeval} {t : ℤ}

theorem not_suffices_none : ¬Suffices now t none := by
  intro ⟨ts, hts, _⟩
  cases hts

theorem suffices_some_iff (ts : Timespec) : Suffices now t (some ts) ↔
    0 ≤ ts.nsec ∧ ts.nsec < 1000000000 ∧ now.nanoseconds + t * 1000000 ≤ ts.nanoseconds := by
  constructor
  · intro ⟨other, ho, h⟩
    cases ho
    exact h
  · exact fun h => ⟨ts, rfl, h⟩

-- The microseconds of the current time are lost.
theorem secondsDeadline_suffices_iff (ht : 0 ≤ t) :
    Suffices now t (secondsDeadline now t) ↔ now.usec = 0 ∧ now.sec + t / 1000 < 2 ^ 63 := by
  have hsec := now.sec_range
  have husec := now.usec_range
  have hdiv : t.tdiv 1000 = t / 1000 := Int.tdiv_eq_ediv_of_nonneg ht
  have hmod : t.tmod 1000 = t % 1000 := Int.tmod_eq_emod_of_nonneg ht
  unfold secondsDeadline
  rw [hdiv, hmod]
  by_cases hfit : now.sec + t / 1000 < 2 ^ 63
  · rw [and_iff_left hfit, signed_some (by omega), signed_some (by omega)]
    show Suffices now t (some _) ↔ _
    rw [suffices_some_iff, Timeval.nanoseconds, Timespec.nanoseconds]
    simp only
    omega
  · rw [signed_none (by omega)]
    exact iff_of_false not_suffices_none fun h => hfit h.2

-- The carry of the nanoseconds keeps the exact instant.
theorem CCritSec.suffices_iff (ht : 0 ≤ t) (hmax : t < 2 ^ 31) :
    Suffices now t (CCritSec.deadline now t) ↔
      now.sec + (now.usec * 1000 + t % 1000 * 1000000) / 1000000000 + t / 1000 < 2 ^ 63 := by
  have hsec := now.sec_range
  have husec := now.usec_range
  have hdiv : t.tdiv 1000 = t / 1000 := Int.tdiv_eq_ediv_of_nonneg ht
  have hmod : t.tmod 1000 = t % 1000 := Int.tmod_eq_emod_of_nonneg ht
  unfold CCritSec.deadline
  rw [hdiv, hmod]
  have hmillis : 0 ≤ t % 1000 ∧ t % 1000 < 1000 := by omega
  generalize hq : t / 1000 = q at *
  generalize hm : t % 1000 = m at *
  have hcarry : (now.usec * 1000 + m * 1000000).tdiv 1000000000 =
      (now.usec * 1000 + m * 1000000) / 1000000000 := Int.tdiv_eq_ediv_of_nonneg (by omega)
  have hrest : (now.usec * 1000 + m * 1000000).tmod 1000000000 =
      (now.usec * 1000 + m * 1000000) % 1000000000 := Int.tmod_eq_emod_of_nonneg (by omega)
  -- 999999000 + 999000000 is below 2 ^ 31.
  rw [signed_some (by omega), signed_some (by omega)]
  show Suffices now t ((signed 64 _).bind fun sum => (signed 32 sum).bind fun nsec => _) ↔ _
  rw [signed_some (by omega), Option.bind_some, signed_some (by omega), Option.bind_some, hcarry,
    hrest]
  by_cases hcarried : now.sec + (now.usec * 1000 + m * 1000000) / 1000000000 < 2 ^ 63
  · rw [signed_some (by omega)]
    show Suffices now t ((signed 64 _).bind fun sec => _) ↔ _
    by_cases hfit : now.sec + (now.usec * 1000 + m * 1000000) / 1000000000 + q < 2 ^ 63
    · rw [signed_some (by omega), Option.bind_some]
      show Suffices now t (some _) ↔ _
      rw [suffices_some_iff, Timeval.nanoseconds, Timespec.nanoseconds]
      simp only
      omega
    · rw [signed_none (by omega)]
      exact iff_of_false not_suffices_none hfit
  · rw [signed_none (by omega)]
    exact iff_of_false not_suffices_none (by omega)

-- Only `timewait` reads the microseconds of the current time.
theorem deadline_suffices_iff (now : Timeval) :
    (∀ t, 0 ≤ t → t < 2 ^ 63 → (Suffices now t (CSemaphore.deadline now t) ↔
      now.usec = 0 ∧ now.sec + t / 1000 < 2 ^ 63)) ∧
    (∀ t, 0 ≤ t → t < 2 ^ 63 → (Suffices now t (CEvent.deadline now t) ↔
      now.usec = 0 ∧ now.sec + t / 1000 < 2 ^ 63)) ∧
    ∀ t, 0 ≤ t → t < 2 ^ 31 → (Suffices now t (CCritSec.deadline now t) ↔
      now.sec + (now.usec * 1000 + t % 1000 * 1000000) / 1000000000 + t / 1000 < 2 ^ 63) := by
  refine ⟨fun t ht _ => ?_, fun t ht _ => ?_, fun t ht hmax => ?_⟩
  · exact secondsDeadline_suffices_iff ht
  · exact secondsDeadline_suffices_iff ht
  · exact CCritSec.suffices_iff ht hmax

def halfPast : Timeval :=
  { sec := 1700000000, usec := 500000, sec_range := by decide, usec_range := by decide }

theorem not_deadline_suffices :
    ¬Suffices halfPast 200 (CSemaphore.deadline halfPast 200) ∧
      ¬Suffices halfPast 200 (CEvent.deadline halfPast 200) := by
  have hnot : ¬Suffices halfPast 200 (secondsDeadline halfPast 200) := by
    rw [secondsDeadline_suffices_iff (by decide)]
    intro h
    exact absurd h.1 (by decide)
  exact ⟨hnot, hnot⟩

theorem deadline_suffices_iff_halfPast :
    (Suffices halfPast 0 (CSemaphore.deadline halfPast 0) ↔
      halfPast.usec = 0 ∧ halfPast.sec + 0 / 1000 < 2 ^ 63) ∧
    (Suffices halfPast 0 (CEvent.deadline halfPast 0) ↔
      halfPast.usec = 0 ∧ halfPast.sec + 0 / 1000 < 2 ^ 63) ∧
    (Suffices halfPast 700 (CCritSec.deadline halfPast 700) ↔
      halfPast.sec + (halfPast.usec * 1000 + 700 % 1000 * 1000000) / 1000000000 + 700 / 1000 <
        2 ^ 63) :=
  ⟨(deadline_suffices_iff halfPast).1 0 (by decide) (by decide),
    (deadline_suffices_iff halfPast).2.1 0 (by decide) (by decide),
    (deadline_suffices_iff halfPast).2.2 700 (by decide) (by decide)⟩

end AsrServiceProxy
