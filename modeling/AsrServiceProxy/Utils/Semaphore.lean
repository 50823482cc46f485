import AsrServiceProxy.Lib.CondVar

namespace AsrServiceProxy

open Transition CondVar

-- `_count` is an int, and takes the low 32 bits of the unsigned long that it is
-- set from. `_max_count` is stored and never read.
structure CSemaphore where
  count : Int32
deriving DecidableEq, Repr

namespace CSemaphore

def signal (s : CSemaphore) : CSemaphore := { count := s.count + 1 }

-- `if (_count > 0) { _count--; ret++; }`, which `wait` runs before it waits
-- and once more after it.
def take (s : CSemaphore) : Option CSemaphore :=
  if 0 < s.count then some { count := s.count - 1 } else none

inductive Call where
  | signal
deriving DecidableEq, Repr

def monitor : Monitor CSemaphore Call where
  call | .signal, s => s.signal
  wakes | .signal => .one
  take := take

-- The waits that can come through, one after the other: none at a negative count.
def tokens (s : CSemaphore) : ℕ := s.count.toInt.toNat

-- `++_count` at the largest int, which is undefined behaviour.
def Overflows (s : State CSemaphore) : Action Call → Prop
  | .call .signal _ => s.shared.count = Int32.maxValue
  | _ => False

instance (s : State CSemaphore) (a : Action Call) : Decidable (Overflows s a) :=
  match a with
  | .call .signal _ => inferInstanceAs (Decidable (s.shared.count = Int32.maxValue))
  | .enter _ | .wake _ | .resume _ => inferInstanceAs (Decidable False)

-- The condition on one step, with as many tokens owed as there are waits
-- without a deadline that have been woken: no other thread takes one of these,
-- no such wait is woken without a token for it, and `++_count` does not overflow.
def Orderly (s : State CSemaphore) : Action Call → Prop
  | .call .signal woken => s.shared.count ≠ Int32.maxValue ∧
      (0 ≤ s.shared.count ∨ ∀ i ∈ woken, ¬s.Infinite i)
  | .enter _ => s.shared.count ≤ 0 ∨ s.owed < s.shared.tokens
  | .wake i => s.Infinite i → s.owed < s.shared.tokens
  | .resume i => s.Infinite i ∨ s.shared.count ≤ 0 ∨ s.owed < s.shared.tokens

variable {sem left : CSemaphore} {s t : State CSemaphore} {a : Action Call} {ret : Option Return}

theorem count_le_zero_iff : sem.count ≤ 0 ↔ sem.count.toInt ≤ 0 := Int32.le_iff_toInt_le

theorem zero_le_count_iff : 0 ≤ sem.count ↔ 0 ≤ sem.count.toInt := Int32.le_iff_toInt_le

theorem toInt_signal (h : sem.count ≠ Int32.maxValue) :
    sem.signal.count.toInt = sem.count.toInt + 1 := by
  have hle := sem.count.toInt_lt
  have hge := sem.count.le_toInt
  have hne : sem.count.toInt ≠ 2 ^ 31 - 1 := fun heq => h (Int32.toInt_inj.mp heq)
  show (sem.count + 1).toInt = _
  rw [Int32.toInt_add]
  exact Int.bmod_eq_of_le (by simp; omega) (by simp; omega)

theorem take_eq_some (h : sem.take = some left) :
    left.count.toInt + 1 = sem.count.toInt ∧ 0 < sem.count.toInt := by
  unfold take at h
  split at h
  next hpos =>
    cases h
    have hpos : 0 < sem.count.toInt := Int32.lt_iff_toInt_lt.mp hpos
    have hlt := sem.count.toInt_lt
    refine ⟨?_, hpos⟩
    show (sem.count - 1).toInt + 1 = _
    rw [Int32.toInt_sub, Int.bmod_eq_of_le (by simp; omega) (by simp; omega)]
    simp
  next => cases h

theorem take_eq_none (h : sem.take = none) : sem.count.toInt ≤ 0 := by
  unfold take at h
  split at h
  next => cases h
  next hpos => exact Int.not_lt.mp fun hlt => hpos (Int32.lt_iff_toInt_lt.mpr hlt)

theorem supplies_iff (n : ℕ) (sem : CSemaphore) : monitor.Supplies n sem ↔ n ≤ sem.tokens := by
  rw [tokens]
  induction n generalizing sem with
  | zero => exact iff_of_true trivial (Nat.zero_le _)
  | succ n ih =>
      cases htake : sem.take with
      | none =>
          have hle := take_eq_none htake
          refine iff_of_false (fun hs => ?_) (by omega)
          obtain ⟨left, hl, -⟩ := hs
          rw [show monitor.take sem = none from htake] at hl
          cases hl
      | some left =>
          obtain ⟨hleft, hpos⟩ := take_eq_some htake
          rw [Monitor.supplies_succ (M := monitor) htake, ih]
          omega

-- The tokens that are left when another thread takes one.
theorem spares_take_iff (s : State CSemaphore) :
    (∀ left, monitor.take s.shared = some left → monitor.Supplies s.owed left) ↔
      s.shared.count ≤ 0 ∨ s.owed < s.shared.tokens := by
  rw [count_le_zero_iff]
  cases htake : s.shared.take with
  | none =>
      exact iff_of_true (Monitor.spares_take_of_none htake) (.inl (take_eq_none htake))
  | some left =>
      obtain ⟨hleft, hpos⟩ := take_eq_some htake
      rw [Monitor.spares_take_of_some (M := monitor) htake, supplies_iff,
        or_iff_right (Int.not_le.mpr hpos), tokens, tokens]
      omega

theorem spares_iff_orderly (h : monitor.Supplied s) (hp : monitor.perform s a = some (t, ret))
    (hint : ¬Overflows s a) : monitor.Spares s a ↔ Orderly s a := by
  rw [Monitor.Supplied, supplies_iff, tokens] at h
  cases a with
  | call c woken =>
      cases c with
      | signal =>
          obtain ⟨waiters, hw, -⟩ := Option.map_eq_some_iff.mp hp
          have hmax : s.shared.count ≠ Int32.maxValue := hint
          have hsignal := toInt_signal hmax
          rw [Monitor.spares_call_iff hw, supplies_iff]
          show _ ≤ s.shared.signal.tokens ↔ (_ ∧ _)
          rw [tokens, hsignal, and_iff_right hmax, zero_le_count_iff]
          rcases owedIn_afterCall_one hw with ⟨howed, hnot⟩ | ⟨howed, hinf⟩
          · rw [howed]
            exact iff_of_true (by omega) (.inr hnot)
          · have hneg : ¬∀ i ∈ woken, ¬s.Infinite i := by
              obtain ⟨i, hi, hin⟩ := hinf
              exact fun hall => hall i hi hin
            rw [howed, or_iff_left hneg]
            omega
  | enter timeOut => exact spares_take_iff s
  | wake i =>
      show (_ → _) ↔ (_ → _)
      rw [supplies_iff]
      exact Iff.rfl
  | resume i => exact or_congr_right (spares_take_iff s)

theorem not_overflows_of_orderly (h : Orderly s a) : ¬Overflows s a := by
  cases a with
  | call c woken =>
      cases c
      exact h.1
  | _ => exact id

theorem supplied_of_orderly {initial : CSemaphore}
    (h : (monitor.system initial).ReachableWhen Orderly s) : monitor.Supplied s :=
  Monitor.supplied_of_reachableWhen
    (fun _ _ _ _ hs hp ho => (spares_iff_orderly hs hp (not_overflows_of_orderly ho)).mpr ho) h

-- The condition is exact: after a step against it that does not overflow, the
-- waits that have been woken go on and one of them returns 0.
theorem failure_of_not_orderly {initial : CSemaphore}
    (h : (monitor.system initial).ReachableWhen Orderly s)
    (hp : monitor.perform s a = some (t, ret)) (hint : ¬Overflows s a) (hnot : ¬Orderly s a) :
    ∃ actions u v i r, (monitor.system initial).run t actions = some u ∧
      monitor.perform u (.resume i) = some (v, some r) ∧ r.timeOut < 0 ∧ r.value = 0 := by
  have hs := supplied_of_orderly h
  apply Monitor.failure_of_not_spares initial hs hp
  rw [spares_iff_orderly hs hp hint]
  exact hnot

end CSemaphore

end AsrServiceProxy
