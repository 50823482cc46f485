import AsrServiceProxy.Utils.Event

-- What `wait` returns when it was called without a deadline.
namespace AsrServiceProxy

open Transition CondVar

-- In every run, such a wait returns 1 and has taken what it waited for.
def InfiniteWaitsSucceed {σ κ : Type} (M : Monitor σ κ) (initial : σ) : Prop :=
  ∀ s a t r, (M.system initial).Reachable s → M.perform s a = some (t, some r) → r.timeOut < 0 →
    r.value = 1 ∧ M.take s.shared = some t.shared

-- A third thread takes the token before the thread it was meant for, and a
-- reset comes between the broadcast and the waiter that it wakes.
theorem not_infiniteWaitsSucceed :
    ¬InfiniteWaitsSucceed CSemaphore.monitor { count := 0 } ∧
      ¬InfiniteWaitsSucceed CEvent.monitor { setted := false, manual := true } := by
  constructor
  · intro h
    have hrun : (CSemaphore.monitor.system { count := 0 }).Reachable
        { shared := { count := 0 }
          waiters := [{ timeOut := -1, phase := .awake }, { timeOut := -1, phase := .returned 1 }] } :=
      Transition.System.Reachable.run (.init rfl)
        (show System.run _ _ [.enter (-1), .call .signal (some 0), .enter (-1)] = _ from rfl)
    have hzero := (h _ (.resume 0) _ _ hrun rfl (by decide)).1
    cases hzero
  · intro h
    have hrun : (CEvent.monitor.system { setted := false, manual := true }).Reachable
        { shared := { setted := false, manual := true }
          waiters := [{ timeOut := -1, phase := .awake }] } :=
      Transition.System.Reachable.run (.init rfl)
        (show System.run _ _ [.enter (-1), .call .setEvent none, .call .resetEvent none] = _ from rfl)
    have hzero := (h _ (.resume 0) _ _ hrun rfl (by decide)).1
    cases hzero

theorem orderly_waits_succeed (semaphore : CSemaphore) (event : CEvent) :
    (∀ s a t r, (CSemaphore.monitor.system semaphore).ReachableWhen CSemaphore.Orderly s →
      CSemaphore.monitor.perform s a = some (t, some r) → r.timeOut < 0 →
        r.value = 1 ∧ t.shared.count.toInt + 1 = s.shared.count.toInt) ∧
    (∀ s a t r, (CEvent.monitor.system event).ReachableWhen CEvent.Orderly s →
      CEvent.monitor.perform s a = some (t, some r) → r.timeOut < 0 →
        r.value = 1 ∧ s.shared.setted ∧ CEvent.monitor.take s.shared = some t.shared) := by
  constructor
  · intro s a t r h hp hinf
    obtain ⟨hvalue, htake⟩ := (CSemaphore.supplied_of_orderly h).succeeds hp hinf
    exact ⟨hvalue, (CSemaphore.take_eq_some htake).1⟩
  · intro s a t r h hp hinf
    obtain ⟨hvalue, htake⟩ := (CEvent.supplied_of_orderly h).succeeds hp hinf
    refine ⟨hvalue, ?_, htake⟩
    by_contra hset
    rw [CEvent.take_cleared (Bool.eq_false_of_not_eq_true hset)] at htake
    cases htake

theorem orderly_waits_succeed_woken :
    (∃ t r, CSemaphore.monitor.perform
        { shared := { count := 1 }, waiters := [{ timeOut := -1, phase := .awake }] }
        (.resume 0) = some (t, some r) ∧ r.value = 1 ∧ t.shared.count.toInt + 1 = 1) ∧
      ∃ t r, CEvent.monitor.perform
        { shared := { setted := true, manual := true }
          waiters := [{ timeOut := -1, phase := .awake }] }
        (.resume 0) = some (t, some r) ∧ r.value = 1 := by
  have hsem : (CSemaphore.monitor.system { count := 0 }).ReachableWhen CSemaphore.Orderly
      { shared := { count := 1 }, waiters := [{ timeOut := -1, phase := .awake }] } :=
    Transition.System.ReachableWhen.run (.init rfl)
      (show System.Meets _ _ _ [.enter (-1), .call .signal (some 0)] from
        ⟨.inl (by decide), ⟨by decide, .inl (by decide)⟩, trivial⟩) rfl
  have hevent : (CEvent.monitor.system { setted := false, manual := true }).ReachableWhen
      CEvent.Orderly
      { shared := { setted := true, manual := true }
        waiters := [{ timeOut := -1, phase := .awake }] } :=
    Transition.System.ReachableWhen.run (.init rfl)
      (show System.Meets _ _ _ [.enter (-1), .call .setEvent none] from
        ⟨fun hset => absurd hset (by decide), .inl rfl, trivial⟩) rfl
  have hwaits := orderly_waits_succeed { count := 0 } { setted := false, manual := true }
  exact ⟨⟨_, _, rfl, hwaits.1 _ (.resume 0) _ _ hsem rfl (by decide)⟩,
    _, _, rfl, (hwaits.2 _ (.resume 0) _ _ hevent rfl (by decide)).1⟩

end AsrServiceProxy
