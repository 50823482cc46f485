import AsrServiceProxy.Utils.Semaphore

namespace AsrServiceProxy

open Transition CondVar

-- `_setted` and `_manual` are `int`s of which only the truth is read.
structure CEvent where
  setted : Bool
  manual : Bool
deriving DecidableEq, Repr

namespace CEvent

def setEvent (e : CEvent) : CEvent := { e with setted := true }

def resetEvent (e : CEvent) : CEvent := { e with setted := false }

def take (e : CEvent) : Option CEvent :=
  if e.setted then some (if e.manual then e else { e with setted := false }) else none

inductive Call where
  | setEvent
  | resetEvent
deriving DecidableEq, Repr

def monitor : Monitor CEvent Call where
  call
    | .setEvent, e => e.setEvent
    | .resetEvent, e => e.resetEvent
  wakes
    | .setEvent => .all
    | .resetEvent => .nobody
  take := take

-- The condition on one step: while a wait without a deadline has been woken,
-- nothing clears the event, an event that clears itself is set for one such
-- wait at a time, and no such wait is woken without its being set.
def Orderly (s : State CEvent) : Action Call → Prop
  | .call .setEvent _ => s.shared.manual ∨ s.pending ≤ 1
  | .call .resetEvent _ => s.owed = 0
  | .enter _ => s.shared.setted → s.shared.manual ∨ s.owed = 0
  | .wake i => s.Infinite i → s.shared.setted ∧ (s.shared.manual ∨ s.owed = 0)
  | .resume i => s.Infinite i ∨ (s.shared.setted → s.shared.manual ∨ s.owed = 0)

variable {e left : CEvent} {s t : State CEvent} {a : Action Call} {ret : Option Return}

theorem take_cleared (h : e.setted = false) : monitor.take e = none := by
  show e.take = none
  rw [take, h]
  rfl

theorem take_manual (h : e.setted) (hm : e.manual) : monitor.take e = some e := by
  show e.take = some e
  rw [take, if_pos h, if_pos hm]

theorem take_auto (h : e.setted) (hm : ¬e.manual) :
    monitor.take e = some { e with setted := false } := by
  show e.take = _
  rw [take, if_pos h, if_neg hm]

theorem supplies_manual (h : e.setted) (hm : e.manual) (n : ℕ) : monitor.Supplies n e := by
  induction n with
  | zero => trivial
  | succ n ih => exact (Monitor.supplies_succ (take_manual h hm)).mpr ih

theorem supplies_cleared (h : e.setted = false) (n : ℕ) : monitor.Supplies n e ↔ n = 0 := by
  cases n with
  | zero => exact iff_of_true trivial rfl
  | succ n =>
      refine iff_of_false (fun hs => ?_) (Nat.succ_ne_zero n)
      obtain ⟨left, hl, -⟩ := hs
      rw [take_cleared h] at hl
      cases hl

theorem supplies_set (h : e.setted) (n : ℕ) : monitor.Supplies n e ↔ e.manual ∨ n ≤ 1 := by
  by_cases hm : e.manual
  · exact iff_of_true (supplies_manual h hm n) (.inl hm)
  · rw [or_iff_right hm]
    cases n with
    | zero => exact iff_of_true trivial (Nat.zero_le 1)
    | succ n =>
        rw [Monitor.supplies_succ (take_auto h hm), supplies_cleared rfl]
        omega

theorem spares_take_iff (s : State CEvent) :
    (∀ left, monitor.take s.shared = some left → monitor.Supplies s.owed left) ↔
      (s.shared.setted → s.shared.manual ∨ s.owed = 0) := by
  by_cases h : s.shared.setted
  · rw [forall_prop_of_true h]
    by_cases hm : s.shared.manual
    · rw [Monitor.spares_take_of_some (take_manual h hm)]
      exact iff_of_true (supplies_manual h hm _) (.inl hm)
    · rw [Monitor.spares_take_of_some (take_auto h hm), supplies_cleared rfl, or_iff_right hm]
  · have htake := take_cleared (Bool.eq_false_of_not_eq_true h)
    exact iff_of_true (Monitor.spares_take_of_none htake) fun hs => absurd hs h

theorem spares_iff_orderly (hp : monitor.perform s a = some (t, ret)) :
    monitor.Spares s a ↔ Orderly s a := by
  cases a with
  | call c woken =>
      obtain ⟨waiters, hw, -⟩ := Option.map_eq_some_iff.mp hp
      rw [Monitor.spares_call_iff hw]
      cases woken with
      | some i => cases c <;> cases hw
      | none =>
          cases c with
          | setEvent =>
              cases hw
              rw [owedIn_wakeUp]
              exact supplies_set (e := s.shared.setEvent) rfl _
          | resetEvent =>
              cases hw
              exact supplies_cleared (e := s.shared.resetEvent) rfl _
  | enter timeOut => exact spares_take_iff s
  | wake i =>
      show (_ → _) ↔ (_ → _)
      refine imp_congr_right fun _ => ?_
      by_cases hset : s.shared.setted
      · rw [supplies_set hset, and_iff_right hset, Nat.succ_le_iff, Nat.lt_one_iff]
      · rw [supplies_cleared (Bool.eq_false_of_not_eq_true hset)]
        exact iff_of_false (Nat.succ_ne_zero _) fun hs => hset hs.1
  | resume i => exact or_congr_right (spares_take_iff s)

theorem supplied_of_orderly {initial : CEvent}
    (h : (monitor.system initial).ReachableWhen Orderly s) : monitor.Supplied s :=
  Monitor.supplied_of_reachableWhen (fun _ _ _ _ _ hp => (spares_iff_orderly hp).mpr) h

theorem failure_of_not_orderly {initial : CEvent}
    (h : (monitor.system initial).ReachableWhen Orderly s)
    (hp : monitor.perform s a = some (t, ret)) (hnot : ¬Orderly s a) :
    ∃ actions u v i r, (monitor.system initial).run t actions = some u ∧
      monitor.perform u (.resume i) = some (v, some r) ∧ r.timeOut < 0 ∧ r.value = 0 := by
  apply Monitor.failure_of_not_spares initial (supplied_of_orderly h) hp
  rw [spares_iff_orderly hp]
  exact hnot

end CEvent

end AsrServiceProxy
