import AsrServiceProxy.Log.LogThread.Lemmas

-- What a `start` that returns true, and a `stop` that waits, find of dispatchers.
namespace AsrServiceProxy.Log.LogThread

open Transition

variable {ι : Type*} {s t : State ι} {a : Action ι}

-- A `CLogThread` in memory whose bytes at `_p_thread` are zero or not.
def systemIn (ι : Type*) (pThread : Bool) : System (State ι) (Action ι) where
  init s := s = constructed ι pThread
  step := step

-- It has not left the loop of `dispatch`.
def Disp.Running : Disp ι → Prop
  | .setStopped | .exited => False
  | _ => True

-- The step is the one with which `start` returns true.
def ReturnsTrue (s : State ι) : Action ι → Prop
  | .ctl => s.ctl = .startTest ∧ s.pThread = true ∨ s.ctl = .startCreate
  | _ => False

structure FindsDispatcher (s : State ι) (a : Action ι) (t : State ι) : Prop where
  started : ReturnsTrue s a → ∃ d ∈ t.dispatchers, d.Running
  waits : t.ctl = .stopWait → s.ctl ≠ .stopWait → ∃ d ∈ t.dispatchers, d.Running

def StartCreatesDispatcher (ι : Type*) (pThread : Bool) : Prop :=
  ∀ s a t, (systemIn ι pThread).Reachable s → step s a = some t → FindsDispatcher s a t

-- `start` has reset `_ev_quit` and not yet returned.
def Control.Reset : Control → Prop
  | .startResetStopped | .startTest | .startCreate => True
  | _ => False

-- With `_p_thread` set, a dispatcher runs that nobody has told to quit.
structure Attended (s : State ι) : Prop where
  locked : Locked s
  running : s.pThread = true → s.ctl ≠ .stopWait →
    s.evQuit = false ∧ ∃ d ∈ s.dispatchers, d.Running
  reset : s.ctl.Reset → s.evQuit = false
  stopping : s.ctl = .stopSetQuit → s.pThread = true
  waiting : s.ctl = .stopWait → s.evStopped = true ∨ ∃ d ∈ s.dispatchers, d ≠ .exited

theorem exists_mem_set {p : Disp ι → Prop} {dispatchers : List (Disp ι)} {i : ℕ} {old new : Disp ι}
    (hi : dispatchers[i]? = some old) (h : ∃ d ∈ dispatchers, p d) (hnew : p old → p new) :
    ∃ d ∈ dispatchers.set i new, p d := by
  obtain ⟨d, hd, hp⟩ := h
  obtain ⟨j, hj⟩ := List.mem_iff_getElem?.mp hd
  by_cases hij : i = j
  · subst hij
    rw [hi] at hj
    cases hj
    have hlt := (List.getElem?_eq_some_iff.mp hi).1
    exact ⟨new, List.mem_set hlt new, hnew hp⟩
  · refine ⟨d, List.mem_of_getElem? (i := j) ?_, hp⟩
    rw [List.getElem?_set_ne hij]
    exact hj

-- A dispatcher leaves the loop only when it has been told to quit.
theorem dispatch_running {i : ℕ} {pc : Disp ι} (ht : dispatch s i pc = some t) :
    t.pThread = s.pThread ∧ t.evQuit = s.evQuit ∧ t.ctl = s.ctl ∧
      ∃ new, t.dispatchers = s.dispatchers.set i new ∧
        (s.evQuit = false → pc.Running → new.Running) ∧
        (new = .exited → t.evStopped = true) ∧ (s.evStopped = true → t.evStopped = true) := by
  cases pc with
  | testQuit =>
      cases ht
      refine ⟨rfl, rfl, rfl, _, rfl, fun hquit _ => ?_, ?_, id⟩
      · rw [hquit]
        trivial
      · split <;> rintro ⟨⟩
  | waitSync | lockLogs | lockDisp =>
      simp only [dispatch] at ht
      split_ifs at ht <;> cases ht <;>
        exact ⟨rfl, rfl, rfl, _, rfl, fun _ _ => trivial, by simp, id⟩
  | pop =>
      simp only [dispatch] at ht
      split at ht <;> cases ht <;> exact ⟨rfl, rfl, rfl, _, rfl, fun _ _ => trivial, by simp, id⟩
  | entry | publish | receive | release =>
      cases ht
      exact ⟨rfl, rfl, rfl, _, rfl, fun _ _ => trivial, by simp, id⟩
  | setStopped =>
      cases ht
      exact ⟨rfl, rfl, rfl, _, rfl, fun _ => False.elim, fun _ => rfl, fun _ => rfl⟩
  | exited => cases ht

theorem append_events {c : ℕ} {pc : Append ι} (ht : append s c pc = some t) :
    t.pThread = s.pThread ∧ t.evQuit = s.evQuit := by
  cases pc with
  | idle => cases ht
  | test | lockLogs | lockDisp =>
      simp only [append] at ht
      split_ifs at ht <;> cases ht <;> exact ⟨rfl, rfl⟩
  | push | signal | unlock | receive =>
      cases ht
      exact ⟨rfl, rfl⟩

theorem Attended.dispatch (h : Attended s) {i : ℕ} {pc : Disp ι}
    (hi : s.dispatchers[i]? = some pc) (ht : dispatch s i pc = some t) (hl : Locked t) :
    Attended t := by
  obtain ⟨hp, hq, hc, new, hd, hrun, hexit, hstop⟩ := dispatch_running ht
  refine ⟨hl, fun hpt hct => ?_, fun hr => ?_, fun hs => ?_, fun hw => ?_⟩
  · rw [hp] at hpt
    rw [hc] at hct
    obtain ⟨hquit, hsome⟩ := h.running hpt hct
    rw [hq, hd]
    exact ⟨hquit, exists_mem_set hi hsome (hrun hquit)⟩
  · rw [hc] at hr
    rw [hq]
    exact h.reset hr
  · rw [hc] at hs
    rw [hp]
    exact h.stopping hs
  · rw [hc] at hw
    rcases h.waiting hw with hs | hsome
    · exact .inl (hstop hs)
    · by_cases hnew : new = .exited
      · exact .inl (hexit hnew)
      · rw [hd]
        exact .inr (exists_mem_set hi hsome fun _ => hnew)

theorem Attended.append (h : Attended s) {c : ℕ} {old new : Append ι}
    (hs : AppendStep s t c old new) (he : t.pThread = s.pThread ∧ t.evQuit = s.evQuit)
    (hl : Locked t) : Attended t := by
  refine ⟨hl, ?_, ?_, ?_, ?_⟩
  · rw [he.1, he.2, hs.ctl, hs.dispatchers]
    exact h.running
  · rw [he.2, hs.ctl]
    exact h.reset
  · rw [he.1, hs.ctl]
    exact h.stopping
  · rw [hs.ctl, hs.stopped, hs.dispatchers]
    exact h.waiting

-- A step of `start` or `stop` that does not touch what the invariant is about.
theorem Attended.advance (h : Attended s) (hl : Locked t)
    (hp : t.pThread = true → s.pThread = true) (hq : t.evQuit = s.evQuit)
    (hd : t.dispatchers = s.dispatchers) (hfrom : s.ctl ≠ .stopWait) (hto : t.ctl ≠ .stopWait)
    (hset : t.ctl = .stopSetQuit → t.pThread = true) (hreset : t.ctl.Reset → s.ctl.Reset) :
    Attended t := by
  refine ⟨hl, fun hpt _ => ?_, fun hr => ?_, hset, fun hw => absurd hw hto⟩
  · rw [hq, hd]
    exact h.running (hp hpt) hfrom
  · rw [hq]
    exact h.reset (hreset hr)

-- `_p_thread` is zero once `stop` has waited.
theorem Attended.leave (hl : Locked t) (hp : t.pThread = false) (hc : t.ctl = .stopResetQuit) :
    Attended t := by
  refine ⟨hl, fun hpt => ?_, fun hr => ?_, fun hs => ?_, fun hw => ?_⟩
  · rw [hp] at hpt
    cases hpt
  · rw [hc] at hr
    exact hr.elim
  · rw [hc] at hs
    cases hs
  · rw [hc] at hw
    cases hw

theorem Attended.control (h : Attended s) (ht : control s s.ctl = some t) (hl : Locked t) :
    Attended t := by
  cases hc : s.ctl with
  | idle =>
      rw [hc] at ht
      cases ht
  | startDrain =>
      rw [hc] at ht
      simp only [LogThread.control] at ht
      split_ifs at ht <;> cases ht
      · exact h.advance hl id rfl rfl (by simp [hc]) (by simp [hc]) (by simp [hc]) (by simp)
      · exact h.advance hl id rfl rfl (by simp [hc]) (by simp) (by simp) False.elim
  | startResetQuit =>
      rw [hc] at ht
      cases ht
      exact ⟨hl, fun hp _ => ⟨rfl, (h.running hp (by simp [hc])).2⟩, fun _ => rfl, by simp,
        by simp⟩
  | startResetStopped =>
      rw [hc] at ht
      cases ht
      exact h.advance hl id rfl rfl (by simp [hc]) (by simp) (by simp) (by simp [hc, Control.Reset])
  | startTest =>
      rw [hc] at ht
      simp only [LogThread.control] at ht
      split_ifs at ht <;> cases ht
      · exact h.advance hl id rfl rfl (by simp [hc]) (by simp) (by simp) False.elim
      · exact h.advance hl id rfl rfl (by simp [hc]) (by simp) (by simp)
          (by simp [hc, Control.Reset])
  | startCreate =>
      rw [hc] at ht
      cases ht
      have hquit := h.reset (by rw [hc]; trivial)
      exact ⟨hl, fun _ _ => ⟨hquit, .entry, by simp, trivial⟩, fun _ => hquit, by simp, by simp⟩
  | stopTest =>
      rw [hc] at ht
      simp only [LogThread.control] at ht
      split_ifs at ht with hp hb <;> cases ht
      · exact h.advance hl id rfl rfl (by simp [hc]) (by simp) (fun _ => hp) False.elim
      · exact h.advance hl (by simp) rfl rfl (by simp [hc]) (by simp) (by simp) False.elim
      · exact h.advance hl id rfl rfl (by simp [hc]) (by simp) (by simp) False.elim
  | stopSetQuit =>
      rw [hc] at ht
      cases ht
      obtain ⟨-, d, hd, hrun⟩ := h.running (h.stopping hc) (by simp [hc])
      have hne : d ≠ .exited := by
        intro he
        rw [he] at hrun
        exact hrun
      exact ⟨hl, fun _ hn => absurd rfl hn, False.elim, by simp, fun _ => .inr ⟨d, hd, hne⟩⟩
  | stopWait =>
      rw [hc] at ht
      simp only [LogThread.control] at ht
      split_ifs at ht
      cases ht
      exact Attended.leave hl rfl rfl
  | stopResetQuit =>
      rw [hc] at ht
      cases ht
      exact ⟨hl, fun hp _ => ⟨rfl, (h.running hp (by simp [hc])).2⟩, fun _ => rfl, by simp,
        by simp⟩
  | stopDrainLogs =>
      rw [hc] at ht
      simp only [LogThread.control] at ht
      split at ht <;> cases ht
      · exact h.advance hl id rfl rfl (by simp [hc]) (by simp) (by simp) False.elim
      · exact h.advance hl id rfl rfl (by simp [hc]) (by simp [hc]) (by simp [hc]) (by simp)
  | stopDrainSync =>
      rw [hc] at ht
      simp only [LogThread.control] at ht
      split_ifs at ht <;> cases ht
      · exact h.advance hl id rfl rfl (by simp [hc]) (by simp [hc]) (by simp [hc]) (by simp)
      · exact h.advance hl id rfl rfl (by simp [hc]) (by simp) (by simp) False.elim

theorem Locked.idle_of_free (h : Locked s) (hfree : s.lockLogs = none) : s.ctl = .idle := by
  by_contra hne
  exact h.logs.not_inside_of_free hfree .ctl hne

theorem Attended.step (h : Attended s) (ht : step s a = some t) : Attended t := by
  have hl := h.locked.step ht
  cases a with
  | disp i =>
      obtain ⟨pc, hi, ht⟩ := Option.bind_eq_some_iff.mp ht
      exact h.dispatch hi ht hl
  | append c =>
      obtain ⟨new, hs⟩ := append_step ht
      exact h.append hs (append_events ht) hl
  | appendLog c li =>
      obtain ⟨-, hs⟩ := appendLog_step ht
      have he : t.pThread = s.pThread ∧ t.evQuit = s.evQuit := by
        simp only [LogThread.step] at ht
        split at ht <;> cases ht
        exact ⟨rfl, rfl⟩
      exact h.append hs he hl
  | start | stop =>
      simp only [LogThread.step] at ht
      split_ifs at ht with hfree
      cases ht
      have hidle := h.locked.idle_of_free hfree
      exact h.advance hl id rfl rfl (by simp [hidle]) (by simp) (by simp) False.elim
  | ctl => exact h.control ht hl
  | spurious =>
      obtain ⟨-, rfl, -⟩ := spurious_step ht
      exact Attended.leave hl rfl rfl

theorem reachable_attended (h : (systemIn ι false).Reachable s) : Attended s := by
  refine System.Reachable.invariant (S := systemIn ι false) ?_ ?_ h
  · intro s hinit
    rw [hinit]
    exact ⟨idle_locked ⟨rfl, rfl, rfl⟩ (by simp [constructed]) fun _ => rfl, nofun, nofun, nofun,
      nofun⟩
  · intro s a t hv ht
    exact hv.step ht

-- The only way into the wait for `_ev_stopped`.
theorem step_to_wait (ht : step s a = some t) (hw : t.ctl = .stopWait) (hne : s.ctl ≠ .stopWait) :
    s.ctl = .stopSetQuit ∧ t.dispatchers = s.dispatchers := by
  cases a with
  | disp i =>
      obtain ⟨pc, -, ht⟩ := Option.bind_eq_some_iff.mp ht
      rw [(dispatch_running ht).2.2.1] at hw
      exact absurd hw hne
  | append c =>
      obtain ⟨new, hs⟩ := append_step ht
      rw [hs.ctl] at hw
      exact absurd hw hne
  | appendLog c li =>
      rw [(appendLog_step ht).2.ctl] at hw
      exact absurd hw hne
  | start | stop =>
      simp only [step] at ht
      split_ifs at ht
      cases ht
      cases hw
  | ctl =>
      simp only [step] at ht
      cases hc : s.ctl with
      | stopSetQuit =>
          rw [hc] at ht
          cases ht
          exact ⟨rfl, rfl⟩
      | idle =>
          rw [hc] at ht
          cases ht
      | startTest | stopTest =>
          rw [hc] at ht
          simp only [control] at ht
          split_ifs at ht <;> cases ht <;> cases hw
      | startDrain | stopDrainSync =>
          rw [hc] at ht
          simp only [control] at ht
          split_ifs at ht <;> cases ht
          · exact absurd hw hne
          · cases hw
      | stopDrainLogs =>
          rw [hc] at ht
          simp only [control] at ht
          split at ht <;> cases ht
          · cases hw
          · exact absurd hw hne
      | stopWait => exact absurd hc hne
      | startResetQuit | startResetStopped | startCreate | stopResetQuit =>
          rw [hc] at ht
          cases ht
          cases hw
  | spurious =>
      obtain ⟨hc, -, -⟩ := spurious_step ht
      exact absurd hc hne

theorem Attended.findsDispatcher (h : Attended s) (ht : LogThread.step s a = some t) :
    FindsDispatcher s a t := by
  constructor
  · intro hr
    cases a with
    | ctl =>
        simp only [LogThread.step] at ht
        rcases hr with ⟨hc, hp⟩ | hc
        · obtain ⟨-, hsome⟩ := h.running hp (by simp [hc])
          rw [hc, LogThread.control, if_pos hp] at ht
          cases ht
          exact hsome
        · rw [hc] at ht
          cases ht
          exact ⟨.entry, by simp, trivial⟩
    | _ => exact hr.elim
  · intro hw hne
    obtain ⟨hc, hd⟩ := step_to_wait ht hw hne
    rw [hd]
    exact (h.running (h.stopping hc) hne).2

-- While `stop` waits, `_ev_stopped` is set or a dispatcher is there to set it.
theorem stop_wait_served (h : (systemIn ι false).Reachable s) (hc : s.ctl = .stopWait) :
    s.evStopped = true ∨ ∃ d ∈ s.dispatchers, d ≠ .exited :=
  (reachable_attended h).waiting hc

-- The first `start` in memory that is not zero returns without a dispatcher.
theorem not_startCreatesDispatcher_of_nonzero (ι : Type*) : ¬StartCreatesDispatcher ι true := by
  intro h
  have hrun : (systemIn ι true).run (constructed ι true) [.start, .ctl, .ctl, .ctl] =
      some { constructed ι true with lockLogs := some .ctl, ctl := .startTest } := rfl
  have hreach := System.Reachable.run (.init rfl) hrun
  obtain ⟨d, hd, -⟩ := (h _ .ctl (constructed ι true) hreach rfl).started (.inl ⟨rfl, rfl⟩)
  cases hd

theorem startCreatesDispatcher_iff (ι : Type*) (pThread : Bool) :
    StartCreatesDispatcher ι pThread ↔ pThread = false := by
  cases pThread with
  | false => exact iff_of_true (fun s a t h ht => (reachable_attended h).findsDispatcher ht) rfl
  | true => exact iff_of_false (not_startCreatesDispatcher_of_nonzero ι) nofun

theorem not_startCreatesDispatcher : ¬∀ pThread, StartCreatesDispatcher ℕ pThread :=
  fun h => not_startCreatesDispatcher_of_nonzero ℕ (h true)

end AsrServiceProxy.Log.LogThread
