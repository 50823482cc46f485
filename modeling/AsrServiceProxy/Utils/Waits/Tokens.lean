import AsrServiceProxy.Lib.CondVar.Tokens
import AsrServiceProxy.Utils.Event

-- What becomes of the tokens of a semaphore and of the settings of an event, whatever the
-- threads do and however they are woken.
namespace AsrServiceProxy

open Transition CondVar Counting

namespace CSemaphore

def countOf (s : CSemaphore) : ℤ := s.count.toInt

theorem metered : monitor.Metered (fun _ => True) countOf where
  call _ _ _ := trivial
  takes _ _ _ h := ⟨trivial, (take_eq_some h).1⟩
  empty _ _ h := take_eq_none h

def posted : Call → ℕ
  | .signal => 1

theorem countOf_call (c : Call) {s : CSemaphore} (h : s.count ≠ Int32.maxValue) :
    (monitor.call c s).countOf = s.countOf + posted c := by
  cases c
  exact toInt_signal h

-- Also where it overflows.
theorem countOf_call_le (c : Call) (s : CSemaphore) :
    (monitor.call c s).countOf ≤ s.countOf + 1 := by
  by_cases h : s.count = Int32.maxValue
  · cases c
    show (s.count + 1).toInt ≤ s.count.toInt + 1
    rw [h]
    decide
  · cases c
    exact (toInt_signal h).le

-- The calls of `signal` in a run.
def signals (actions : List (Action Call)) : ℕ := total (Action.handsIn posted) actions

section

variable {initial : CSemaphore} {actions : List (Action Call)} {t : State CSemaphore}

theorem worth_eq
    (hint : (monitor.system initial).Meets (fun s a => ¬Overflows s a) ⟨initial, []⟩ actions)
    (hr : (monitor.system initial).run ⟨initial, []⟩ actions = some t) :
    t.worth countOf = initial.countOf + signals actions := by
  have hrun := metered.run (R := (· = ·)) (fun _ => rfl) (fun _ _ _ => Eq.trans)
    (fun _ _ k hab => congrArg (· + k) hab)
    (fun s c woken _ hc => countOf_call c (by cases c; exact hc)) trivial hint hr
  rw [hrun]
  exact congrArg (· + _) (add_zero _)

theorem noneLeft (h : (monitor.system initial).Reachable t) : NoneLeft countOf t := by
  refine NoneLeft.reachable metered (fun c shared _ => countOf_call_le c shared)
    (fun c shared hnobody => ?_) trivial h
  cases c
  cases hnobody

end

end CSemaphore

namespace CEvent

-- An event that clears itself has one token while it is set.
def tokens (e : CEvent) : ℕ := if e.setted then 1 else 0

theorem metered : monitor.Metered (fun e => e.manual = false) (fun e => e.tokens) where
  call c _ h := by
    cases c <;> exact h
  takes e left h htake := by
    cases hset : e.setted with
    | false =>
        rw [take_cleared hset] at htake
        cases htake
    | true =>
        rw [take_auto hset (by simp [h]), Option.some.injEq] at htake
        subst htake
        exact ⟨h, by simp [tokens, hset]⟩
  empty e h htake := by
    cases hset : e.setted with
    | false => simp [tokens, hset]
    | true =>
        rw [take_auto hset (by simp [h])] at htake
        cases htake

def posted : Call → ℕ
  | .setEvent => 1
  | .resetEvent => 0

theorem tokens_call (c : Call) (e : CEvent) :
    (monitor.call c e).tokens ≤ e.tokens + posted c := by
  cases c with
  | setEvent => exact Nat.le_add_left 1 _
  | resetEvent => exact Nat.zero_le _

-- The calls of `set_event` in a run.
def sets (actions : List (Action Call)) : ℕ := total (Action.handsIn posted) actions

section

variable {initial : CEvent} {actions : List (Action Call)} {t : State CEvent}

theorem worth_le (hauto : initial.manual = false)
    (hr : (monitor.system initial).run ⟨initial, []⟩ actions = some t) :
    t.worth (fun e => e.tokens) ≤ initial.tokens + sets actions := by
  have hmeets : (monitor.system initial).Meets (fun _ _ => True) ⟨initial, []⟩ actions :=
    .of_forall (by simp) _ _
  have hrun := metered.run (R := (· ≤ ·)) le_refl
    (fun _ _ _ => le_trans) (fun _ _ k hab => add_le_add_left hab k)
    (fun s c woken _ _ => mod_cast tokens_call c s.shared) hauto hmeets hr
  refine hrun.trans_eq ?_
  exact congrArg (· + _) (add_zero _)

theorem isSome_take (e : CEvent) : (monitor.take e).isSome = e.setted := by
  change e.take.isSome = e.setted
  rw [take]
  split
  next hset => exact hset.symm
  next hset => exact (Bool.eq_false_of_not_eq_true hset).symm

theorem allAwake (h : (monitor.system initial).Reachable t) : AllAwake monitor t := by
  refine AllAwake.reachable (fun c shared hwakes hready => ?_) h
  cases c with
  | setEvent => exact absurd rfl hwakes
  | resetEvent =>
      rw [isSome_take] at hready
      cases hready

end

end CEvent

-- In every run of a semaphore in which `++_count` does not overflow, the waits that succeeded
-- and the count make up what it started with and the signals, and while a thread sleeps there
-- is one on its way for every token. An event that clears itself lets at most one wait through
-- for each setting, and nobody sleeps while an event is set.
theorem waits_conserve_tokens (semaphore : CSemaphore) (event : CEvent) :
    (∀ actions t, (CSemaphore.monitor.system semaphore).run ⟨semaphore, []⟩ actions = some t →
      ((CSemaphore.monitor.system semaphore).Meets (fun s a => ¬CSemaphore.Overflows s a)
          ⟨semaphore, []⟩ actions →
        t.count Phase.taken + t.shared.count.toInt =
          semaphore.count.toInt + CSemaphore.signals actions) ∧
      (0 < t.count Phase.asleep → t.shared.count.toInt ≤ t.count Phase.awakened)) ∧
    (∀ actions t, (CEvent.monitor.system event).run ⟨event, []⟩ actions = some t →
      (event.manual = false →
        t.count Phase.taken + t.shared.tokens ≤ event.tokens + CEvent.sets actions) ∧
      (t.shared.setted → t.count Phase.asleep = 0)) := by
  constructor
  · intro actions t hr
    have hreach : (CSemaphore.monitor.system semaphore).Reachable t :=
      System.Reachable.run (.init rfl) hr
    refine ⟨fun hint => ?_, CSemaphore.noneLeft hreach⟩
    have hworth := CSemaphore.worth_eq hint hr
    rw [State.worth, Int.add_comm] at hworth
    exact hworth
  · intro actions t hr
    have hreach : (CEvent.monitor.system event).Reachable t :=
      System.Reachable.run (.init rfl) hr
    refine ⟨fun hauto => ?_, fun hset => CEvent.allAwake hreach ?_⟩
    · have hle := CEvent.worth_le hauto hr
      rw [State.worth, Int.add_comm] at hle
      exact mod_cast hle
    · rw [CEvent.isSome_take]
      exact hset

-- Two threads sleep and are signalled, a third one takes a token before them.
theorem waits_conserve_tokens_thief : ∃ t, (CSemaphore.monitor.system { count := 0 }).run
      ⟨{ count := 0 }, []⟩ [.enter (-1), .enter 5, .call .signal (some 0), .enter (-1), .resume 0,
        .call .signal (some 1)] = some t ∧
    t.count Phase.taken + t.shared.count.toInt = 2 := by
  obtain ⟨t, ht⟩ : ∃ t, (CSemaphore.monitor.system { count := 0 }).run
      ⟨{ count := 0 }, []⟩ [.enter (-1), .enter 5, .call .signal (some 0), .enter (-1), .resume 0,
        .call .signal (some 1)] = some t := ⟨_, rfl⟩
  have hboth := waits_conserve_tokens { count := 0 } { setted := false, manual := false }
  exact ⟨t, ht, (hboth.1 _ t ht).1 ⟨id, id, by decide, id, id, by decide, trivial⟩⟩

end AsrServiceProxy
