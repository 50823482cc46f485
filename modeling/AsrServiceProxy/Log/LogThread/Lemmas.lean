import AsrServiceProxy.Lib.Mutex
import AsrServiceProxy.Log.LogThread

namespace AsrServiceProxy.Log.LogThread

open Mutex Transition

variable {ι : Type*} {s t : State ι}

-- Between taking `_lock_logs` and giving it back.
def Append.Queuing : Append ι → Prop
  | .push _ | .signal | .unlock => True
  | _ => False

def Append.Receiving : Append ι → Prop
  | .receive _ => True
  | _ => False

def Disp.Receiving : Disp ι → Prop
  | .receive _ => True
  | _ => False

-- One for a dispatcher that has taken a token and has not popped.
def Disp.tokens : Disp ι → ℕ
  | .lockLogs | .pop => 1
  | _ => 0

-- The item that the dispatcher has popped and has not released.
def Disp.item? : Disp ι → Option ι
  | .lockDisp li | .receive li | .release li => some li
  | _ => none

-- One for a call that has pushed its item and has not signalled.
def Append.pending : Append ι → ℕ
  | .signal => 1
  | _ => 0

def State.InsideLogs (s : State ι) : Owner → Prop
  | .disp i => s.dispatchers[i]? = some .pop
  | .app c => (s.appenders c).Queuing
  | .ctl => s.ctl ≠ .idle

def State.InsideDisp (s : State ι) : Owner → Prop
  | .disp i => ∃ d, s.dispatchers[i]? = some d ∧ d.Receiving
  | .app c => (s.appenders c).Receiving
  | .ctl => False

structure Locked (s : State ι) : Prop where
  logs : Owned s.lockLogs s.InsideLogs
  disp : Owned s.lockDisp s.InsideDisp

-- What a dispatcher's step does to the queue and to the tokens.
inductive QueueStep (s t : State ι) (old new : Disp ι) : Prop
  | away (hpop : old ≠ .pop) (hlogs : t.logs = s.logs)
      (hsync : t.logSync + new.tokens = s.logSync + old.tokens)
      (hitem : (∀ li, old ≠ .release li) ∧ new.item? = old.item? ∨
        ∃ li, old = .release li ∧ new.item? = none)
  | empty (hpop : old = .pop) (hs : s.logs = []) (ht : t.logs = []) (hsync : t.logSync = s.logSync)
      (hnew : new = .testQuit)
  | popped (li : ι) (hpop : old = .pop) (hlogs : s.logs = li :: t.logs)
      (hsync : t.logSync = s.logSync) (hnew : new = .lockDisp li)

structure DispStep (s t : State ι) (i : ℕ) (old new : Disp ι) : Prop where
  dispatchers : t.dispatchers = s.dispatchers.set i new
  appenders : t.appenders = s.appenders
  ctl : t.ctl = s.ctl
  logs : Move (.disp i) (old = .pop) (new = .pop) s.lockLogs t.lockLogs
  disp : Move (.disp i) old.Receiving new.Receiving s.lockDisp t.lockDisp
  queue : QueueStep s t old new
  take : new = .lockLogs → old = .waitSync ∧ 0 < s.logSync
  deliver : ∀ li, new = .lockDisp li → old = .pop
  stopped : t.evStopped = s.evStopped ∧ new ≠ .exited ∨ t.evStopped = true

-- Outside both locks, with neither a token nor an item.
def Disp.Idle : Disp ι → Prop
  | .entry | .publish | .testQuit | .waitSync | .setStopped => True
  | _ => False

theorem Disp.Idle.ne_of_not {d e : Disp ι} (h : d.Idle) (he : ¬e.Idle) : d ≠ e := by
  intro heq
  exact he (heq ▸ h)

theorem Disp.Idle.not_receiving {d : Disp ι} (h : d.Idle) : ¬d.Receiving := by
  cases d <;> simp_all [Disp.Idle, Disp.Receiving]

theorem Disp.Idle.holds_nothing {d : Disp ι} (h : d.Idle) : d.tokens = 0 ∧ d.item? = none := by
  cases d <;> simp_all [Disp.Idle, Disp.tokens, Disp.item?]

theorem DispStep.of_idle (s : State ι) (i : ℕ) (old new : Disp ι) (hold : old.Idle)
    (hnew : new.Idle) (bStarted nThrdStarted : Bool) :
    DispStep s ({ s with bStarted := bStarted, nThrdStarted := nThrdStarted }.setDisp i new) i
      old new := by
  obtain ⟨htoken, hitem⟩ := hold.holds_nothing
  obtain ⟨htoken', hitem'⟩ := hnew.holds_nothing
  have hpop : old ≠ .pop := hold.ne_of_not id
  have hpop' : new ≠ .pop := hnew.ne_of_not id
  refine ⟨rfl, rfl, rfl, ?_, ?_, .away hpop rfl ?_ (.inl ⟨?_, ?_⟩), ?_, ?_, .inl ⟨rfl, ?_⟩⟩
  · exact .keep (iff_of_false hpop' hpop)
  · exact .keep (iff_of_false hnew.not_receiving hold.not_receiving)
  · rw [htoken, htoken']
    rfl
  · intro li
    exact hold.ne_of_not id
  · rw [hitem, hitem']
  · intro he
    exact absurd he (hnew.ne_of_not id)
  · intro li he
    exact absurd he (hnew.ne_of_not id)
  · exact hnew.ne_of_not id

theorem dispatch_step {i : ℕ} {pc : Disp ι} (ht : dispatch s i pc = some t) :
    ∃ new, DispStep s t i pc new := by
  cases pc with
  | entry =>
      cases ht
      exact ⟨.publish, .of_idle s i .entry .publish trivial trivial true s.nThrdStarted⟩
  | publish =>
      cases ht
      exact ⟨.testQuit, .of_idle s i .publish .testQuit trivial trivial s.bStarted true⟩
  | testQuit =>
      simp only [dispatch] at ht
      split_ifs at ht <;> cases ht
      · exact ⟨.setStopped,
          .of_idle s i .testQuit .setStopped trivial trivial s.bStarted s.nThrdStarted⟩
      · exact ⟨.waitSync,
          .of_idle s i .testQuit .waitSync trivial trivial s.bStarted s.nThrdStarted⟩
  | waitSync =>
      simp only [dispatch] at ht
      split_ifs at ht with hpos <;> cases ht
      · have hsync : s.logSync - 1 + 1 = s.logSync := Nat.sub_add_cancel hpos
        exact ⟨.lockLogs, rfl, rfl, rfl, .keep (by simp), .keep Iff.rfl,
          .away (by simp) rfl hsync (.inl ⟨by simp, rfl⟩), fun _ => ⟨rfl, hpos⟩, by simp,
          .inl ⟨rfl, by simp⟩⟩
      · exact ⟨.testQuit,
          .of_idle s i .waitSync .testQuit trivial trivial s.bStarted s.nThrdStarted⟩
  | lockLogs =>
      simp only [dispatch] at ht
      split_ifs at ht with hfree
      cases ht
      exact ⟨.pop, rfl, rfl, rfl, .enter hfree rfl, .keep Iff.rfl,
        .away (by simp) rfl rfl (.inl ⟨by simp, rfl⟩), by simp, by simp, .inl ⟨rfl, by simp⟩⟩
  | pop =>
      simp only [dispatch] at ht
      split at ht
      next hlogs =>
        cases ht
        exact ⟨.testQuit, rfl, rfl, rfl, .leave rfl (by simp), .keep Iff.rfl,
          .empty rfl hlogs hlogs rfl rfl, by simp, by simp, .inl ⟨rfl, by simp⟩⟩
      next li rest hlogs =>
        cases ht
        exact ⟨.lockDisp li, rfl, rfl, rfl, .leave rfl (by simp), .keep Iff.rfl,
          .popped li rfl hlogs rfl rfl, by simp, by simp, .inl ⟨rfl, by simp⟩⟩
  | lockDisp li =>
      simp only [dispatch] at ht
      split_ifs at ht with hfree
      cases ht
      exact ⟨.receive li, rfl, rfl, rfl, .keep (by simp), .enter hfree trivial,
        .away (by simp) rfl rfl (.inl ⟨by simp, rfl⟩), by simp, by simp, .inl ⟨rfl, by simp⟩⟩
  | receive li =>
      cases ht
      exact ⟨.release li, rfl, rfl, rfl, .keep (by simp), .leave trivial id,
        .away (by simp) rfl rfl (.inl ⟨by simp, rfl⟩), by simp, by simp, .inl ⟨rfl, by simp⟩⟩
  | release li =>
      cases ht
      exact ⟨.testQuit, rfl, rfl, rfl, .keep (by simp), .keep Iff.rfl,
        .away (by simp) rfl rfl (.inr ⟨li, rfl, rfl⟩), by simp, by simp, .inl ⟨rfl, by simp⟩⟩
  | setStopped =>
      cases ht
      exact ⟨.exited, rfl, rfl, rfl, .keep (by simp), .keep Iff.rfl,
        .away (by simp) rfl rfl (.inl ⟨by simp, rfl⟩), by simp, by simp, .inr rfl⟩
  | exited => cases ht

inductive PushStep (s t : State ι) (old new : Append ι) : Prop
  | away (hpush : ∀ li, old ≠ .push li) (hlogs : t.logs = s.logs)
      (hsync : t.logSync + new.pending = s.logSync + old.pending)
  | pushed (li : ι) (hpush : old = .push li) (hlogs : t.logs = s.logs ++ [li])
      (hsync : t.logSync = s.logSync) (hnew : new = .signal)

structure AppendStep (s t : State ι) (c : ℕ) (old new : Append ι) : Prop where
  dispatchers : t.dispatchers = s.dispatchers
  appenders : t.appenders = Function.update s.appenders c new
  ctl : t.ctl = s.ctl
  logs : Move (.app c) old.Queuing new.Queuing s.lockLogs t.lockLogs
  disp : Move (.app c) old.Receiving new.Receiving s.lockDisp t.lockDisp
  queue : PushStep s t old new
  deliver : new.Receiving → ∃ li, old = .lockDisp li
  stopped : t.evStopped = s.evStopped

theorem append_step {c : ℕ} {pc : Append ι} (ht : append s c pc = some t) :
    ∃ new, AppendStep s t c pc new := by
  cases pc with
  | idle => cases ht
  | test li =>
      simp only [append] at ht
      split_ifs at ht <;> cases ht
      · exact ⟨.lockLogs li, rfl, rfl, rfl, .keep Iff.rfl, .keep Iff.rfl, .away (by simp) rfl rfl,
          False.elim, rfl⟩
      · exact ⟨.lockDisp li, rfl, rfl, rfl, .keep Iff.rfl, .keep Iff.rfl, .away (by simp) rfl rfl,
          False.elim, rfl⟩
  | lockLogs li =>
      simp only [append] at ht
      split_ifs at ht with hfree
      cases ht
      exact ⟨.push li, rfl, rfl, rfl, .enter hfree trivial, .keep Iff.rfl, .away (by simp) rfl rfl,
        False.elim, rfl⟩
  | push li =>
      cases ht
      exact ⟨.signal, rfl, rfl, rfl, .keep Iff.rfl, .keep Iff.rfl, .pushed li rfl rfl rfl rfl,
        False.elim, rfl⟩
  | signal =>
      cases ht
      exact ⟨.unlock, rfl, rfl, rfl, .keep Iff.rfl, .keep Iff.rfl, .away (by simp) rfl rfl,
        False.elim, rfl⟩
  | unlock =>
      cases ht
      exact ⟨.idle, rfl, rfl, rfl, .leave trivial id, .keep Iff.rfl, .away (by simp) rfl rfl,
        False.elim, rfl⟩
  | lockDisp li =>
      simp only [append] at ht
      split_ifs at ht with hfree
      cases ht
      exact ⟨.receive li, rfl, rfl, rfl, .keep Iff.rfl, .enter hfree trivial,
        .away (by simp) rfl rfl, fun _ => ⟨li, rfl⟩, rfl⟩
  | receive li =>
      cases ht
      exact ⟨.idle, rfl, rfl, rfl, .keep Iff.rfl, .leave trivial id, .away (by simp) rfl rfl,
        False.elim, rfl⟩

theorem appendLog_step {c : ℕ} {li : ι} (ht : step s (.appendLog c li) = some t) :
    s.appenders c = .idle ∧ AppendStep s t c .idle (.test li) := by
  simp only [LogThread.step] at ht
  split at ht
  next hc =>
    cases ht
    exact ⟨hc, rfl, rfl, rfl, .keep Iff.rfl, .keep Iff.rfl, .away (by simp) rfl rfl,
      False.elim, rfl⟩
  next => cases ht

structure ControlStep (s t : State ι) : Prop where
  dispatchers : t.dispatchers = s.dispatchers ∨ t.dispatchers = s.dispatchers ++ [.entry]
  appenders : t.appenders = s.appenders
  logs : Move .ctl (s.ctl ≠ .idle) (t.ctl ≠ .idle) s.lockLogs t.lockLogs
  disp : t.lockDisp = s.lockDisp
  queue : t.logs = s.logs ∨ ∃ li, s.ctl = .stopDrainLogs ∧ s.logs = li :: t.logs

theorem control_step (ht : control s s.ctl = some t) : ControlStep s t := by
  cases hc : s.ctl with
  | idle =>
      rw [hc] at ht
      cases ht
  | startTest =>
      rw [hc] at ht
      simp only [control] at ht
      split_ifs at ht <;> cases ht
      · exact ⟨.inl rfl, rfl, .leave (by simp [hc]) (by simp), rfl, .inl rfl⟩
      · exact ⟨.inl rfl, rfl, .keep (by simp [hc]), rfl, .inl rfl⟩
  | startCreate =>
      rw [hc] at ht
      cases ht
      exact ⟨.inr rfl, rfl, .leave (by simp [hc]) (by simp), rfl, .inl rfl⟩
  | stopDrainSync =>
      rw [hc] at ht
      simp only [control] at ht
      split_ifs at ht <;> cases ht
      · exact ⟨.inl rfl, rfl, .keep (by simp [hc]), rfl, .inl rfl⟩
      · exact ⟨.inl rfl, rfl, .leave (by simp [hc]) (by simp), rfl, .inl rfl⟩
  | startDrain | stopTest | stopWait =>
      rw [hc] at ht
      simp only [control] at ht
      split_ifs at ht <;>
        cases ht <;>
        exact ⟨.inl rfl, rfl, .keep (by simp [hc]), rfl, .inl rfl⟩
  | stopDrainLogs =>
      rw [hc] at ht
      simp only [control] at ht
      split at ht
      next =>
        cases ht
        exact ⟨.inl rfl, rfl, .keep (by simp [hc]), rfl, .inl rfl⟩
      next li rest hlogs =>
        cases ht
        exact ⟨.inl rfl, rfl, .keep (by simp [hc]), rfl, .inr ⟨li, hc, hlogs⟩⟩
  | startResetQuit | startResetStopped | stopSetQuit | stopResetQuit =>
      rw [hc] at ht
      cases ht
      exact ⟨.inl rfl, rfl, .keep (by simp [hc]), rfl, .inl rfl⟩

-- The call of `start` or `stop` that takes `_lock_logs`.
theorem call_step {a : Action ι} (ha : a = .start ∨ a = .stop) (ht : step s a = some t) :
    ControlStep s t := by
  obtain rfl | rfl := ha <;>
    simp only [LogThread.step] at ht <;>
    split_ifs at ht with hfree <;>
    cases ht <;>
    exact ⟨.inl rfl, rfl, .enter hfree (by simp), rfl, .inl rfl⟩

theorem spurious_step (ht : step s .spurious = some t) :
    s.ctl = .stopWait ∧ t = { s with pThread := false, ctl := .stopResetQuit } ∧
      ControlStep s t := by
  simp only [LogThread.step] at ht
  split at ht
  next hc =>
    cases ht
    exact ⟨hc, rfl, .inl rfl, rfl, .keep (by simp [hc]), rfl, .inl rfl⟩
  next => cases ht

theorem DispStep.locked {i : ℕ} {old new : Disp ι} (hs : DispStep s t i old new)
    (hi : s.dispatchers[i]? = some old) (h : Locked s) : Locked t := by
  have hlt : i < s.dispatchers.length := (List.getElem?_eq_some_iff.mp hi).1
  have hnew : t.dispatchers[i]? = some new := by
    rw [hs.dispatchers, List.getElem?_set_self hlt]
  have hother : ∀ j, j ≠ i → t.dispatchers[j]? = s.dispatchers[j]? := by
    intro j hj
    rw [hs.dispatchers, List.getElem?_set_ne (Ne.symm hj)]
  constructor
  · have hm : Move (.disp i) (s.InsideLogs (.disp i)) (new = .pop) s.lockLogs t.lockLogs := by
      simpa [State.InsideLogs, hi] using hs.logs
    refine h.logs.move hm ?_ ?_
    · simp [State.InsideLogs, hnew]
    · intro o ho
      cases o with
      | disp j =>
          have hj : j ≠ i := fun he => ho (he ▸ rfl)
          simp [State.InsideLogs, hother j hj]
      | app c => simp [State.InsideLogs, hs.appenders]
      | ctl => simp [State.InsideLogs, hs.ctl]
  · have hm : Move (.disp i) (s.InsideDisp (.disp i)) new.Receiving s.lockDisp t.lockDisp := by
      simpa [State.InsideDisp, hi] using hs.disp
    refine h.disp.move hm ?_ ?_
    · simp [State.InsideDisp, hnew]
    · intro o ho
      cases o with
      | disp j =>
          have hj : j ≠ i := fun he => ho (he ▸ rfl)
          simp [State.InsideDisp, hother j hj]
      | app c => simp [State.InsideDisp, hs.appenders]
      | ctl => rfl

theorem AppendStep.locked {c : ℕ} {old new : Append ι} (hs : AppendStep s t c old new)
    (hc : s.appenders c = old) (h : Locked s) : Locked t := by
  subst hc
  constructor
  · refine h.logs.move hs.logs ?_ ?_
    · simp [State.InsideLogs, hs.appenders]
    · intro o ho
      cases o with
      | disp j => simp [State.InsideLogs, hs.dispatchers]
      | app d =>
          have hd : d ≠ c := fun he => ho (he ▸ rfl)
          simp [State.InsideLogs, hs.appenders, hd]
      | ctl => simp [State.InsideLogs, hs.ctl]
  · refine h.disp.move hs.disp ?_ ?_
    · simp [State.InsideDisp, hs.appenders]
    · intro o ho
      cases o with
      | disp j => simp [State.InsideDisp, hs.dispatchers]
      | app d =>
          have hd : d ≠ c := fun he => ho (he ▸ rfl)
          simp [State.InsideDisp, hs.appenders, hd]
      | ctl => rfl

-- A created dispatcher is at its entry, inside neither section.
theorem getElem?_append_entry {dispatchers : List (Disp ι)} {j : ℕ} {d : Disp ι} (hd : d ≠ .entry) :
    (dispatchers ++ [.entry])[j]? = some d ↔ dispatchers[j]? = some d := by
  rw [List.getElem?_append]
  split_ifs with hlt
  · rfl
  · rw [List.getElem?_eq_none (Nat.le_of_not_lt hlt), List.getElem?_singleton]
    split_ifs
    · simp [Ne.symm hd]
    · simp

theorem ControlStep.locked (hs : ControlStep s t) (h : Locked s) : Locked t := by
  have hdisp : ∀ (j : ℕ) (d : Disp ι), d ≠ .entry →
      (t.dispatchers[j]? = some d ↔ s.dispatchers[j]? = some d) := by
    intro j d hd
    rcases hs.dispatchers with hsame | hnew
    · rw [hsame]
    · rw [hnew, getElem?_append_entry hd]
  constructor
  · refine h.logs.move hs.logs Iff.rfl ?_
    intro o ho
    cases o with
    | disp j => exact hdisp j .pop (by simp)
    | app c => simp [State.InsideLogs, hs.appenders]
    | ctl => exact absurd rfl ho
  · rw [hs.disp]
    intro o
    rw [← h.disp o]
    cases o with
    | disp j =>
        refine exists_congr fun d => and_congr_left fun hd => hdisp j d ?_
        rintro rfl
        exact hd
    | app c => simp [State.InsideDisp, hs.appenders]
    | ctl => rfl

theorem Locked.step (h : Locked s) {a : Action ι} (ht : step s a = some t) : Locked t := by
  cases a with
  | disp i =>
      obtain ⟨pc, hi, ht⟩ := Option.bind_eq_some_iff.mp ht
      obtain ⟨new, hs⟩ := dispatch_step ht
      exact hs.locked hi h
  | append c =>
      obtain ⟨new, hs⟩ := append_step ht
      exact hs.locked rfl h
  | ctl => exact (control_step ht).locked h
  | appendLog c li =>
      obtain ⟨hc, hs⟩ := appendLog_step ht
      exact hs.locked hc h
  | start | stop => exact (call_step (by simp) ht).locked h
  | spurious => exact (spurious_step ht).2.2.locked h

-- No dispatcher, or one that was just created.
theorem idle_locked (h : s.lockLogs = none ∧ s.lockDisp = none ∧ s.ctl = .idle)
    (hd : ∀ d ∈ s.dispatchers, d = .entry) (ha : ∀ c, s.appenders c = .idle) : Locked s := by
  obtain ⟨hlogs, hdisp, hc⟩ := h
  constructor
  · intro o
    rw [hlogs]
    cases o with
    | disp j =>
        refine iff_of_false (fun hj => ?_) (by simp)
        cases hd _ (List.mem_of_getElem? hj)
    | app c => simp [State.InsideLogs, ha, Append.Queuing]
    | ctl => simp [State.InsideLogs, hc]
  · intro o
    rw [hdisp]
    cases o with
    | disp j =>
        refine iff_of_false ?_ (by simp)
        intro h
        obtain ⟨d, hj, hr⟩ := h
        rw [hd d (List.mem_of_getElem? hj)] at hr
        exact hr
    | app c => simp [State.InsideDisp, ha, Append.Receiving]
    | ctl => simp [State.InsideDisp]

-- Whatever calls are made, each lock has its one owner.
theorem reachable_locked (h : (system ι).Reachable s) : Locked s := by
  refine System.Reachable.invariant (S := system ι) ?_ ?_ h
  · intro s hinit
    obtain ⟨pThread, rfl⟩ := hinit
    exact idle_locked ⟨rfl, rfl, rfl⟩ (by simp [constructed]) fun _ => rfl
  · intro s a t hv ht
    exact hv.step ht

end AsrServiceProxy.Log.LogThread
