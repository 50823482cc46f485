import AsrServiceProxy.Log.LogThread.Lemmas

namespace AsrServiceProxy.Log.LogThread

open Mutex Transition

variable {ι : Type*} {s t : State ι}

-- From the call of `stop` to the end of its wait for `_ev_stopped`.
def Control.Closing : Control → Prop
  | .stopTest | .stopSetQuit | .stopWait => True
  | _ => False

def Control.Starting : Control → Prop
  | .startDrain | .startResetQuit | .startResetStopped | .startTest | .startCreate => True
  | _ => False

def Disp.awaitsDisp : Disp ι → Bool
  | .lockDisp _ => true
  | _ => false

def Append.awaitsDisp : Append ι → Bool
  | .lockDisp _ => true
  | _ => false

def State.callerDelivers (s : State ι) : Bool :=
  match s.lockDisp with
  | some (.app _) => true
  | _ => false

-- No dispatcher waits for `_lock_logs` with a token, and none waits for
-- `_lock_disp` while an `append_log` call delivers its item itself.
def Quiet (s : State ι) : Prop :=
  (∀ d ∈ s.dispatchers, d ≠ .lockLogs) ∧
    ((∃ d ∈ s.dispatchers, d.awaitsDisp) → s.callerDelivers = false)

-- The condition on one step: `stop` is called in a quiet state, and while it
-- holds `_lock_logs` no dispatcher takes a token and no `append_log` call takes
-- `_lock_disp` before a dispatcher that waits for it.
def Timely (s : State ι) : Action ι → Prop
  | .stop => Quiet s
  | .disp i => s.lockLogs = some .ctl → s.dispatchers[i]? = some .waitSync → s.logSync = 0
  | .append c => s.lockLogs = some .ctl → (s.appenders c).awaitsDisp →
      ∀ d ∈ s.dispatchers, ¬d.awaitsDisp
  | _ => True

structure Closable (s : State ι) : Prop where
  locked : Locked s
  single : s.dispatchers.length = 1
  exited : .exited ∈ s.dispatchers → s.evStopped = true
  starting : ¬s.ctl.Starting
  closing : s.ctl.Closing → Quiet s

instance [DecidableEq ι] (s : State ι) (a : Action ι) : Decidable (Timely s a) :=
  match a with
  | .stop => inferInstanceAs (Decidable (_ ∧ _))
  | .disp _ => inferInstanceAs (Decidable (_ → _ → _))
  | .append _ => inferInstanceAs (Decidable (_ → _ → _))
  | .appendLog _ _ | .start | .ctl | .spurious => isTrue trivial

theorem Locked.ctl_owner (h : Locked s) (hc : s.ctl.Closing) : s.lockLogs = some .ctl := by
  apply (h.logs .ctl).mp
  intro hi
  rw [hi] at hc
  exact hc

theorem DispStep.quiet {i : ℕ} {old new : Disp ι} (hs : DispStep s t i old new) (hpop : old ≠ .pop)
    (hsync : old = .waitSync → s.logSync = 0) (hq : Quiet s) : Quiet t := by
  have hlogs : new ≠ .lockLogs := by
    intro hn
    obtain ⟨hold, hpos⟩ := hs.take hn
    have hz := hsync hold
    omega
  have hdisp : ¬new.awaitsDisp := by
    intro hn
    cases new with
    | lockDisp li => exact hpop (hs.deliver li rfl)
    | _ => cases hn
  have hmem : ∀ d ∈ t.dispatchers, d = new ∨ d ∈ s.dispatchers := by
    intro d hd
    rw [hs.dispatchers] at hd
    exact (List.mem_or_eq_of_mem_set hd).symm
  constructor
  · intro d hd
    rcases hmem d hd with rfl | hd
    · exact hlogs
    · exact hq.1 d hd
  · intro h
    obtain ⟨d, hd, hw⟩ := h
    rcases hmem d hd with rfl | hd
    · exact absurd hw hdisp
    · have hcall := hq.2 ⟨d, hd, hw⟩
      have hm := hs.disp
      unfold State.callerDelivers at hcall ⊢
      generalize t.lockDisp = lock at hm ⊢
      cases hm with
      | keep => exact hcall
      | enter | leave => rfl

theorem Closable.dispatch (h : Closable s) {i : ℕ} {old new : Disp ι}
    (hi : s.dispatchers[i]? = some old) (hs : DispStep s t i old new)
    (hsync : s.lockLogs = some .ctl → old = .waitSync → s.logSync = 0) : Closable t := by
  refine ⟨hs.locked hi h.locked, ?_, ?_, hs.ctl ▸ h.starting, ?_⟩
  · rw [hs.dispatchers, List.length_set]
    exact h.single
  · intro he
    rcases hs.stopped with ⟨hsame, hne⟩ | ht
    · rw [hs.dispatchers] at he
      rw [hsame]
      rcases List.mem_or_eq_of_mem_set he with he | he
      · exact h.exited he
      · exact absurd he.symm hne
    · exact ht
  · intro hc
    rw [hs.ctl] at hc
    have hown := h.locked.ctl_owner hc
    have hpop : old ≠ .pop := by
      rintro rfl
      have hin : s.InsideLogs (.disp i) := hi
      exact h.locked.logs.not_inside hown (by simp) hin
    exact hs.quiet hpop (hsync hown) (h.closing hc)

theorem Closable.append (h : Closable s) {c : ℕ} {old new : Append ι}
    (hc : s.appenders c = old) (hs : AppendStep s t c old new)
    (hwait : s.lockLogs = some .ctl → old.awaitsDisp → ∀ d ∈ s.dispatchers, ¬d.awaitsDisp) :
    Closable t := by
  refine ⟨hs.locked hc h.locked, hs.dispatchers ▸ h.single, ?_, hs.ctl ▸ h.starting, ?_⟩
  · rw [hs.dispatchers, hs.stopped]
    exact h.exited
  · intro hcl
    rw [hs.ctl] at hcl
    obtain ⟨hlogs, hcall⟩ := h.closing hcl
    rw [Quiet, hs.dispatchers]
    refine ⟨hlogs, ?_⟩
    intro h
    obtain ⟨d, hd, hw⟩ := h
    have hnone := hcall ⟨d, hd, hw⟩
    have hm := hs.disp
    unfold State.callerDelivers at hnone ⊢
    generalize t.lockDisp = lock at hm ⊢
    cases hm with
    | keep => exact hnone
    | leave => rfl
    | enter _ hr =>
        obtain ⟨li, rfl⟩ := hs.deliver hr
        exact absurd hw (hwait (h.locked.ctl_owner hcl) rfl d hd)

theorem control_closing (hn : ¬s.ctl.Starting) (ht : control s s.ctl = some t) :
    ¬t.ctl.Starting ∧ (t.ctl.Closing → s.ctl.Closing) ∧ t.evStopped = s.evStopped ∧
      t.dispatchers = s.dispatchers ∧ t.lockDisp = s.lockDisp := by
  cases hc : s.ctl with
  | idle =>
      rw [hc] at ht
      cases ht
  | startDrain | startResetQuit | startResetStopped | startTest | startCreate =>
      rw [hc] at hn
      exact absurd trivial hn
  | stopSetQuit =>
      rw [hc] at ht
      cases ht
      exact ⟨id, fun _ => trivial, rfl, rfl, rfl⟩
  | stopResetQuit =>
      rw [hc] at ht
      cases ht
      exact ⟨id, False.elim, rfl, rfl, rfl⟩
  | stopTest | stopWait | stopDrainSync =>
      rw [hc] at ht hn
      simp only [control] at ht
      split_ifs at ht <;>
        cases ht <;>
        simp_all [Control.Starting, Control.Closing]
  | stopDrainLogs =>
      rw [hc] at ht hn
      simp only [control] at ht
      split at ht <;>
        cases ht <;>
        simp_all [Control.Starting, Control.Closing]

theorem Closable.control (h : Closable s) (ht : control s s.ctl = some t) : Closable t := by
  have hs := control_step ht
  obtain ⟨hstart, hclosing, hstopped, hdisp, hlock⟩ := control_closing h.starting ht
  refine ⟨hs.locked h.locked, hdisp ▸ h.single, ?_, hstart, ?_⟩
  · rw [hdisp, hstopped]
    exact h.exited
  · intro hc
    have hq := h.closing (hclosing hc)
    unfold Quiet State.callerDelivers at hq ⊢
    rw [hdisp, hlock]
    exact hq

theorem Closable.step (h : Closable s) {a : Action ι} (hcond : Timely s a)
    (ht : (runningSystem ι).step s a = some t) : Closable t := by
  cases a with
  | start => cases ht
  | disp i =>
      obtain ⟨pc, hi, ht⟩ := Option.bind_eq_some_iff.mp ht
      obtain ⟨new, hs⟩ := dispatch_step ht
      refine h.dispatch hi hs fun hown hpc => ?_
      exact hcond hown (hpc ▸ hi)
  | appendLog c li =>
      obtain ⟨hc, hs⟩ := appendLog_step ht
      exact h.append hc hs (by simp [Append.awaitsDisp])
  | append c =>
      obtain ⟨new, hs⟩ := append_step ht
      exact h.append rfl hs hcond
  | stop =>
      replace ht : LogThread.step s .stop = some t := ht
      have hs := call_step (.inr rfl) ht
      simp only [LogThread.step] at ht
      split_ifs at ht
      cases ht
      exact ⟨hs.locked h.locked, h.single, h.exited, id, fun _ => hcond⟩
  | ctl => exact h.control ht
  | spurious =>
      obtain ⟨hc, rfl, hs⟩ := spurious_step ht
      exact ⟨hs.locked h.locked, h.single, h.exited, id, False.elim⟩

theorem reachable_closable (h : (runningSystem ι).ReachableWhen Timely s) : Closable s := by
  refine System.ReachableWhen.invariant (S := runningSystem ι) ?_ ?_ h
  · rintro _ rfl
    refine ⟨idle_locked ⟨rfl, rfl, rfl⟩ ?_ fun _ => rfl, rfl, by simp, id, False.elim⟩
    simp
  · intro s a t hv hc ht
    exact hv.step hc ht

-- While `stop` waits, the dispatcher can move.
theorem stop_wait_progress (h : (runningSystem ι).ReachableWhen Timely s) (hw : s.ctl = .stopWait)
    (he : s.evStopped = false) : ∃ i t, step s (.disp i) = some t := by
  have hv := reachable_closable h
  obtain ⟨hlogs, hcall⟩ := hv.closing (by rw [hw]; trivial)
  obtain ⟨d, hd⟩ := List.length_eq_one_iff.mp hv.single
  refine ⟨0, ?_⟩
  simp only [LogThread.step, hd, List.getElem?_cons_zero, Option.bind_some]
  cases d with
  | lockLogs => exact absurd rfl (hlogs .lockLogs (by simp [hd]))
  | exited =>
      have hs := hv.exited (by simp [hd])
      rw [hs] at he
      cases he
  | lockDisp li =>
      -- nobody can hold `_lock_disp`: not `stop`, not the dispatcher itself, not a caller
      have hfree : s.lockDisp = none := by
        cases hl : s.lockDisp with
        | none => rfl
        | some o =>
            have hin := (hv.locked.disp o).mpr hl
            cases o with
            | ctl => exact absurd hin id
            | app c =>
                have hc := hcall ⟨.lockDisp li, by simp [hd], rfl⟩
                simp [State.callerDelivers, hl] at hc
            | disp i =>
                obtain ⟨d, hi, hr⟩ := hin
                rw [hd] at hi
                have hm := List.mem_of_getElem? hi
                rw [List.mem_singleton] at hm
                rw [hm] at hr
                exact absurd hr id
      simp only [dispatch, hfree, if_true]
      exact ⟨_, rfl⟩
  | waitSync =>
      simp only [dispatch]
      split_ifs <;> exact ⟨_, rfl⟩
  | pop =>
      simp only [dispatch]
      split <;> exact ⟨_, rfl⟩
  | entry | publish | testQuit | receive | release | setStopped => exact ⟨_, rfl⟩

def entered : State ℕ := { constructed ℕ true with dispatchers := [.entry] }

-- `stop` is called while the dispatcher tests `_ev_quit`.
theorem stop_wait_progress_at_test : ∃ s, (runningSystem ℕ).ReachableWhen Timely s ∧
    s.ctl = .stopWait ∧ s.evStopped = false ∧ ∃ i t, step s (.disp i) = some t := by
  obtain ⟨s, hs⟩ : ∃ s, (runningSystem ℕ).runWhen Timely entered
    [.disp 0, .disp 0, .stop, .ctl, .ctl] = some s := ⟨_, rfl⟩
  have hreach : (runningSystem ℕ).ReachableWhen Timely s :=
    System.ReachableWhen.runWhen (.init rfl) hs
  have hw : s.ctl = .stopWait := by
    cases hs
    rfl
  have he : s.evStopped = false := by
    cases hs
    rfl
  exact ⟨s, hreach, hw, he, stop_wait_progress hreach hw he⟩

-- The dispatcher has passed its test of `_ev_quit` and taken the token of an
-- appended item when `stop` takes `_lock_logs` and waits with it.
def deadlock : List (Action ℕ) :=
  [.disp 0, .disp 0, .disp 0, .appendLog 0 7, .append 0, .append 0, .append 0, .append 0, .append 0,
    .disp 0, .stop, .ctl, .ctl]

theorem stop_wait_deadlock : ¬∀ s, (runningSystem ℕ).Reachable s → s.ctl = .stopWait →
    s.evStopped = false → ∃ i t, step s (.disp i) = some t := by
  intro h
  obtain ⟨s, hs⟩ : ∃ s, (runningSystem ℕ).run entered deadlock = some s := ⟨_, rfl⟩
  have hprog := h s (System.Reachable.run (.init rfl) hs)
  cases hs
  obtain ⟨i, t, ht⟩ := hprog rfl rfl
  cases i with
  | zero => cases ht
  | succ i => cases ht

end AsrServiceProxy.Log.LogThread
