import AsrServiceProxy.Log.LogThread.Lemmas

namespace AsrServiceProxy.Log.LogThread

open Counting Mutex Transition

variable {ι : Type*} {s t : State ι}

theorem Append.pending_eq_zero {a : Append ι} (h : ¬a.Queuing) : a.pending = 0 := by
  cases a <;> simp_all [Append.Queuing, Append.pending]

def State.pending (s : State ι) : ℕ :=
  match s.lockLogs with
  | some (.app c) => (s.appenders c).pending
  | _ => 0

def Control.Draining : Control → Prop
  | .stopDrainLogs | .stopDrainSync => True
  | _ => False

instance (c : Control) : Decidable c.Draining :=
  decidable_of_iff (c = .stopDrainLogs ∨ c = .stopDrainSync)
    (by cases c <;> simp [Control.Draining])

structure Conserved (s : State ι) : Prop where
  locked : Locked s
  balance : ¬s.ctl.Draining →
    s.logSync + total Disp.tokens s.dispatchers + s.pending = s.logs.length
  drained : s.ctl = .stopDrainSync → s.logs = []

theorem DispStep.pending_eq {i : ℕ} {old new : Disp ι} (hs : DispStep s t i old new)
    (hi : s.dispatchers[i]? = some old) (h : Locked s) : t.pending = s.pending := by
  have hm := hs.logs
  unfold State.pending
  rw [hs.appenders]
  generalize t.lockLogs = lock at hm
  cases hm with
  | keep => rfl
  | enter hfree => rw [hfree]
  | leave hin =>
      rw [hin] at hi
      rw [(h.logs (.disp i)).mp hi]

theorem AppendStep.pending_add {c : ℕ} {old new : Append ι} (hs : AppendStep s t c old new)
    (hc : s.appenders c = old) (h : Locked s) :
    t.pending + old.pending = s.pending + new.pending := by
  have hm := hs.logs
  have hown : old.Queuing ↔ s.lockLogs = some (.app c) := by
    rw [← hc]
    exact h.logs (.app c)
  unfold State.pending
  rw [hs.appenders]
  generalize t.lockLogs = lock at hm
  cases hm with
  | keep hk =>
      by_cases hq : old.Queuing
      · rw [hown.mp hq]
        simp only [Function.update_self, hc]
        omega
      · rw [Append.pending_eq_zero hq, Append.pending_eq_zero (hq ∘ hk.mp)]
        cases hl : s.lockLogs with
        | none => rfl
        | some o =>
            cases o with
            | app d =>
                have hd : d ≠ c := by
                  rintro rfl
                  exact hq (hown.mpr hl)
                simp only [Function.update_of_ne hd]
            | disp | ctl => rfl
  | enter hfree hin =>
      have hq : ¬old.Queuing := by
        rw [hown, hfree]
        simp
      rw [hfree, Append.pending_eq_zero hq]
      simp
  | leave hin hout =>
      rw [hown.mp hin, Append.pending_eq_zero hout]
      simp [hc]

theorem State.pending_eq_zero (h : ∀ c, s.lockLogs ≠ some (.app c)) : s.pending = 0 := by
  unfold State.pending
  split
  next c hc => exact absurd hc (h c)
  next => rfl

-- A token that is taken is paid back by the item that is popped for it.
theorem DispStep.tokens_add {i : ℕ} {old new : Disp ι} (hs : DispStep s t i old new)
    (hi : s.dispatchers[i]? = some old) (hpop : old = .pop → s.logs ≠ []) :
    t.logSync + total Disp.tokens t.dispatchers + s.logs.length =
      s.logSync + total Disp.tokens s.dispatchers + t.logs.length := by
  have hset := total_set Disp.tokens s.dispatchers i old new hi
  rw [← hs.dispatchers] at hset
  cases hs.queue with
  | away _ hlogs hsync =>
      rw [hlogs]
      omega
  | empty hold hl => exact absurd hl (hpop hold)
  | popped li hold hlogs hsync hnew =>
      rw [hlogs, List.length_cons]
      rw [hold, hnew] at hset
      simp only [Disp.tokens] at hset
      omega

theorem Conserved.dispatch (h : Conserved s) {i : ℕ} {old new : Disp ι}
    (hi : s.dispatchers[i]? = some old) (hs : DispStep s t i old new) : Conserved t := by
  refine ⟨hs.locked hi h.locked, ?_, ?_⟩
  · intro hd
    rw [hs.ctl] at hd
    have hb := h.balance hd
    have hpop : old = .pop → s.logs ≠ [] := by
      rintro rfl hl
      have hle := le_total Disp.tokens s.dispatchers i .pop hi
      rw [hl] at hb
      simp only [Disp.tokens, List.length_nil] at hle hb
      omega
    have htok := hs.tokens_add hi hpop
    have hpend := hs.pending_eq hi h.locked
    omega
  · intro hc
    rw [hs.ctl] at hc
    have hlogs := h.drained hc
    cases hs.queue with
    | away _ hsame =>
        rw [hsame]
        exact hlogs
    | empty _ _ ht => exact ht
    | popped li _ hcons =>
        rw [hlogs] at hcons
        cases hcons

theorem Conserved.append (h : Conserved s) {c : ℕ} {old new : Append ι}
    (hc : s.appenders c = old) (hs : AppendStep s t c old new) : Conserved t := by
  have hpend := hs.pending_add hc h.locked
  refine ⟨hs.locked hc h.locked, ?_, ?_⟩
  · intro hd
    rw [hs.ctl] at hd
    have hb := h.balance hd
    rw [hs.dispatchers]
    cases hs.queue with
    | away _ hlogs hsync =>
        rw [hlogs]
        omega
    | pushed li hold hlogs hsync hnew =>
        rw [hold, hnew] at hpend
        rw [hlogs, List.length_append]
        simp only [Append.pending, List.length_singleton] at hpend ⊢
        omega
  · intro hd
    rw [hs.ctl] at hd
    cases hs.queue with
    | away _ hlogs =>
        rw [hlogs]
        exact h.drained hd
    | pushed li hold =>
        -- a call that pushes owns `_lock_logs`, and so does the one that drains
        have hin : s.InsideLogs (.app c) := by
          simp only [State.InsideLogs, hc, hold]
          trivial
        have hctl : s.InsideLogs .ctl := by simp [State.InsideLogs, hd]
        cases h.locked.logs.exclusive hin hctl

-- The condition on one step: `start` finds no token to drain, and `stop`
-- drains while no dispatcher has taken a token that it has not redeemed.
def Orderly (s : State ι) (a : Action ι) : Prop :=
  a = .ctl → (s.ctl = .startDrain → s.logSync = 0) ∧
    (s.ctl.Draining → ∀ d ∈ s.dispatchers, d ≠ .lockLogs)

instance [DecidableEq ι] (s : State ι) (a : Action ι) : Decidable (Orderly s a) :=
  inferInstanceAs (Decidable (_ → _ ∧ _))

theorem ControlStep.pending_eq_zero (hs : ControlStep s t)
    (h : ∀ c, s.lockLogs ≠ some (.app c)) : t.pending = 0 := by
  apply State.pending_eq_zero
  intro c
  have hm := hs.logs
  generalize t.lockLogs = lock at hm ⊢
  cases hm with
  | keep => exact h c
  | enter | leave => simp

theorem tokens_eq_zero (h : ∀ d ∈ s.dispatchers, d ≠ .lockLogs ∧ d ≠ .pop) :
    total Disp.tokens s.dispatchers = 0 := by
  apply total_eq_zero
  intro d hd
  obtain ⟨hlock, hpop⟩ := h d hd
  cases d <;> simp_all [Disp.tokens]

theorem control_drained (hd : s.ctl = .stopDrainSync → s.logs = [])
    (ht : control s s.ctl = some t) : t.ctl = .stopDrainSync → t.logs = [] := by
  intro hc'
  cases hc : s.ctl with
  | stopDrainSync =>
      rw [hc] at ht
      simp only [control] at ht
      split_ifs at ht <;> cases ht
      · exact hd hc
      · cases hc'
  | stopDrainLogs =>
      rw [hc] at ht
      simp only [control] at ht
      split at ht
      next hl =>
        cases ht
        exact hl
      next =>
        cases ht
        rw [hc] at hc'
        cases hc'
  | idle | startResetQuit | startResetStopped | startCreate | stopSetQuit | stopResetQuit =>
      rw [hc] at ht
      cases ht
      try cases hc'
  | startDrain | startTest | stopTest | stopWait =>
      rw [hc] at ht
      simp only [control] at ht
      split_ifs at ht <;>
        cases ht <;>
        simp [hc] at hc'

theorem control_balance (hb : ¬s.ctl.Draining →
      s.logSync + total Disp.tokens s.dispatchers = s.logs.length)
    (hstart : s.ctl = .startDrain → s.logSync = 0)
    (hd : s.ctl = .stopDrainSync → s.logs = [] ∧ total Disp.tokens s.dispatchers = 0)
    (ht : control s s.ctl = some t) :
    ¬t.ctl.Draining → t.logSync + total Disp.tokens t.dispatchers = t.logs.length := by
  intro hnd
  cases hc : s.ctl with
  | stopDrainSync =>
      obtain ⟨hlogs, htok⟩ := hd hc
      rw [hc] at ht
      simp only [control] at ht
      split_ifs at ht with hpos <;> cases ht
      · simp [hc, Control.Draining] at hnd
      · rw [hlogs, htok]
        simp only [List.length_nil]
        omega
  | stopDrainLogs =>
      rw [hc] at ht
      simp only [control] at ht
      split at ht <;> cases ht
      · exact absurd trivial hnd
      · simp [hc, Control.Draining] at hnd
  | startDrain =>
      have hz := hstart hc
      rw [hc] at ht hb
      simp only [control, hz, lt_irrefl, if_false] at ht
      cases ht
      exact hz ▸ hb id
  | startCreate =>
      rw [hc] at ht hb
      cases ht
      have hsame := hb id
      simp only [total_append, total_cons, total_nil, Disp.tokens]
      omega
  | idle | startResetQuit | startResetStopped | stopSetQuit =>
      rw [hc] at ht hb
      cases ht
      try exact hb id
  | stopResetQuit =>
      rw [hc] at ht
      cases ht
      exact absurd trivial hnd
  | startTest | stopTest | stopWait =>
      rw [hc] at ht hb
      simp only [control] at ht
      split_ifs at ht <;>
        cases ht <;>
        exact hb id

theorem Conserved.control (h : Conserved s) (ho : Orderly s .ctl)
    (ht : control s s.ctl = some t) : Conserved t := by
  obtain ⟨hstart, hdrain⟩ := ho rfl
  have hs := control_step ht
  have hbusy : s.ctl ≠ .idle := by
    intro hc
    rw [hc] at ht
    cases ht
  have hown : s.lockLogs = some .ctl := (h.locked.logs .ctl).mp hbusy
  have hpend : s.pending = 0 := State.pending_eq_zero (by simp [hown])
  have hpend' : t.pending = 0 := hs.pending_eq_zero (by simp [hown])
  have htok : s.ctl = .stopDrainSync → s.logs = [] ∧ total Disp.tokens s.dispatchers = 0 := by
    intro hc
    refine ⟨h.drained hc, tokens_eq_zero fun d hd => ⟨hdrain (by rw [hc]; trivial) d hd, ?_⟩⟩
    rintro rfl
    obtain ⟨i, hi⟩ := List.mem_iff_getElem?.mp hd
    have hin : s.InsideLogs (.disp i) := hi
    exact h.locked.logs.not_inside hown (by simp) hin
  refine ⟨hs.locked h.locked, ?_, control_drained h.drained ht⟩
  rw [hpend']
  refine control_balance ?_ hstart htok ht
  have hb := h.balance
  rw [hpend] at hb
  exact hb

theorem Conserved.call (h : Conserved s) (hs : ControlStep s t) (hfree : s.lockLogs = none)
    (ht : t.logSync = s.logSync ∧ t.dispatchers = s.dispatchers ∧ t.logs = s.logs)
    (hc : t.ctl ≠ .stopDrainSync) : Conserved t := by
  obtain ⟨hsync, hdisp, hlogs⟩ := ht
  have hidle : s.ctl = .idle := by
    by_contra hc
    exact h.locked.logs.not_inside_of_free hfree .ctl hc
  refine ⟨hs.locked h.locked, fun _ => ?_, fun he => absurd he hc⟩
  have hb := h.balance (by simp [hidle, Control.Draining])
  rw [State.pending_eq_zero (by simp [hfree])] at hb
  rw [hs.pending_eq_zero (by simp [hfree]), hsync, hdisp, hlogs]
  exact hb

theorem Conserved.step (h : Conserved s) {a : Action ι} (ho : Orderly s a)
    (ht : step s a = some t) : Conserved t := by
  cases a with
  | disp i =>
      obtain ⟨pc, hi, ht⟩ := Option.bind_eq_some_iff.mp ht
      obtain ⟨new, hs⟩ := dispatch_step ht
      exact h.dispatch hi hs
  | appendLog c li =>
      obtain ⟨hc, hs⟩ := appendLog_step ht
      exact h.append hc hs
  | append c =>
      obtain ⟨new, hs⟩ := append_step ht
      exact h.append rfl hs
  | start | stop =>
      have hs := call_step (by simp) ht
      simp only [LogThread.step] at ht
      split_ifs at ht with hfree
      cases ht
      exact h.call hs hfree ⟨rfl, rfl, rfl⟩ (by simp)
  | ctl => exact h.control ho ht
  | spurious =>
      obtain ⟨hc, rfl, hs⟩ := spurious_step ht
      have hb := h.balance (by simp [hc, Control.Draining])
      exact ⟨hs.locked h.locked, fun _ => hb, by simp⟩

theorem reachable_conserved (h : (system ι).ReachableWhen Orderly s) : Conserved s := by
  refine System.ReachableWhen.invariant (S := system ι) ?_ ?_ h
  · intro s hinit
    obtain ⟨pThread, rfl⟩ := hinit
    have hlocked : Locked (constructed ι pThread) :=
      idle_locked ⟨rfl, rfl, rfl⟩ (by simp [constructed]) fun _ => rfl
    exact ⟨hlocked, fun _ => rfl, by simp [constructed]⟩
  · intro s a t hv ho ht
    exact hv.step ho ht

-- With `_lock_logs` free, the tokens that are there or taken are as many as the
-- queued items.
theorem tokens_conserved (h : (system ι).ReachableWhen Orderly s) (hfree : s.lockLogs = none) :
    s.logSync + total Disp.tokens s.dispatchers = s.logs.length := by
  have hv := reachable_conserved h
  have hidle : s.ctl = .idle := by
    by_contra hc
    exact hv.locked.logs.not_inside_of_free hfree .ctl hc
  have hb := hv.balance (by simp [hidle, Control.Draining])
  rw [State.pending_eq_zero (by simp [hfree])] at hb
  exact hb

-- The steps of the first `start` and of an `append_log` call on the thread it
-- creates.
def startOne : List (Action ℕ) :=
  [.start, .ctl, .ctl, .ctl, .ctl, .ctl, .disp 0, .disp 0, .appendLog 0 7, .append 0, .append 0,
    .append 0, .append 0, .append 0]

theorem tokens_conserved_one_item : ∃ s, (system ℕ).ReachableWhen Orderly s ∧
    s.lockLogs = none ∧ s.logs = [7] ∧ s.logSync + total Disp.tokens s.dispatchers = 1 := by
  obtain ⟨s, hs⟩ : ∃ s, (system ℕ).runWhen Orderly (constructed ℕ false) startOne = some s :=
    ⟨_, rfl⟩
  have hreach : (system ℕ).ReachableWhen Orderly s :=
    System.ReachableWhen.runWhen (.init ⟨false, rfl⟩) hs
  have hfree : s.lockLogs = none := by
    cases hs
    rfl
  have hlogs : s.logs = [7] := by
    cases hs
    rfl
  have hb := tokens_conserved hreach hfree
  rw [hlogs] at hb
  exact ⟨s, hreach, hfree, hlogs, hb⟩

-- A second `start` drains the token and leaves the item.
theorem start_drains_token : ¬∀ s, (system ℕ).Reachable s → s.lockLogs = none →
    s.logSync + total Disp.tokens s.dispatchers = s.logs.length := by
  intro h
  obtain ⟨s, hs⟩ : ∃ s, (system ℕ).run (constructed ℕ false)
    (startOne ++ [.start, .ctl, .ctl, .ctl, .ctl, .ctl]) = some s := ⟨_, rfl⟩
  have hb := h s (System.Reachable.run (.init ⟨false, rfl⟩) hs)
  cases hs
  exact absurd (hb rfl) (by decide)

end AsrServiceProxy.Log.LogThread
