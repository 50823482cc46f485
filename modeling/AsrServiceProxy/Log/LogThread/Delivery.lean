import AsrServiceProxy.Log.LogThread.Lemmas
import AsrServiceProxy.Log.Receivers

-- One caller that makes its calls of `start`, `stop` and `append_log` one after
-- the other, and what becomes of each item.
namespace AsrServiceProxy.Log.LogThread

open Receivers Transition

inductive Phase where
  | never
  | running
  | stopped
deriving DecidableEq, Repr

-- The dispatcher has been scheduled and has set `_n_thrd_started`.
def Disp.begun {ι : Type*} : Disp ι → Bool
  | .entry | .publish => false
  | _ => true

def Disp.isExited {ι : Type*} : Disp ι → Bool
  | .exited => true
  | _ => false

def State.phase {ι : Type*} (s : State ι) : Phase :=
  if s.dispatchers.isEmpty then .never
  else if s.dispatchers.all Disp.isExited then .stopped
  else .running

-- What an `append_log` call has done with its item.
inductive Outcome (κ : Type*) where
  | pending
  | queued (li : LogItem)
  | delivered (li : LogItem) (recvs : List (LogReceiver κ))
deriving DecidableEq, Repr

-- The phase is that of the moment of the call.
structure Record (κ : Type*) where
  phase : Phase
  item : LogItem
  outcome : Outcome κ
deriving DecidableEq, Repr

-- `records` has one entry for each `append_log` call, the last one first.
structure Session (κ : Type*) where
  thread : State LogItem
  records : List (Record κ)

-- The caller is in no call, and every dispatcher has been scheduled.
def Ready (s : State LogItem) : Prop :=
  s.ctl = .idle ∧ s.appenders 0 = .idle ∧ ∀ d ∈ s.dispatchers, d.begun

instance (s : State LogItem) : Decidable (Ready s) := inferInstanceAs (Decidable (_ ∧ _))

def Allowed (s : State LogItem) : Action LogItem → Prop
  | .appendLog c _ => c = 0 ∧ Ready s
  | .start | .stop => Ready s
  | .append c => c = 0
  | .disp _ | .ctl | .spurious => True

instance (s : State LogItem) (a : Action LogItem) : Decidable (Allowed s a) :=
  match a with
  | .appendLog _ _ => inferInstanceAs (Decidable (_ ∧ _))
  | .start | .stop => inferInstanceAs (Decidable (Ready s))
  | .append _ => inferInstanceAs (Decidable (_ = _))
  | .disp _ | .ctl | .spurious => isTrue trivial

section

variable {κ : Type*} (receiveLog : κ → LogItem → ℤ) (recvs : List (LogReceiver κ))

def recordStep (s : State LogItem) (a : Action LogItem) (records : List (Record κ)) :
    List (Record κ) :=
  match a with
  | .appendLog _ li => { phase := s.phase, item := li, outcome := .pending } :: records
  | .append c =>
      match s.appenders c, records with
      | .push li, r :: rest => { r with outcome := .queued li } :: rest
      | .receive li, r :: rest =>
          { r with outcome := .delivered li (doDispatch receiveLog li recvs) } :: rest
      | _, _ => records
  | _ => records

def sessionStep (s : Session κ) (a : Action LogItem) : Option (Session κ) :=
  if Allowed s.thread a then
    (step s.thread a).map fun t =>
      { thread := t, records := recordStep receiveLog recvs s.thread a s.records }
  else none

def session : System (Session κ) (Action LogItem) where
  init s := ∃ pThread, s = { thread := constructed LogItem pThread, records := [] }
  step := sessionStep receiveLog recvs

end

section

variable {ι : Type*} {s t : State ι}

-- What `_n_thrd_started` says about the dispatchers. `start` resets it only on
-- its way to creating one, and `stop` never.
structure Flag (s : State ι) : Prop where
  never : s.dispatchers = [] → s.nThrdStarted = false
  reset : s.nThrdStarted = false →
    s.dispatchers = [] ∨ s.ctl = .startCreate ∨ ∃ d ∈ s.dispatchers, d.begun = false

theorem dispatch_flag {i : ℕ} {pc : Disp ι} (ht : dispatch s i pc = some t) :
    t.ctl = s.ctl ∧ ∃ new, t.dispatchers = s.dispatchers.set i new ∧
      ((pc = .entry ∧ new = .publish ∧ t.nThrdStarted = s.nThrdStarted) ∨
      (pc = .publish ∧ new.begun ∧ t.nThrdStarted = true) ∨
      (pc.begun ∧ new.begun ∧ t.nThrdStarted = s.nThrdStarted)) := by
  cases pc with
  | entry =>
      cases ht
      exact ⟨rfl, _, rfl, .inl ⟨rfl, rfl, rfl⟩⟩
  | publish =>
      cases ht
      exact ⟨rfl, _, rfl, .inr (.inl ⟨rfl, rfl, rfl⟩)⟩
  | testQuit =>
      cases ht
      refine ⟨rfl, _, rfl, .inr (.inr ⟨rfl, ?_, rfl⟩)⟩
      split <;> rfl
  | waitSync | lockLogs | lockDisp =>
      simp only [dispatch] at ht
      split_ifs at ht <;>
        cases ht <;>
        exact ⟨rfl, _, rfl, .inr (.inr ⟨rfl, rfl, rfl⟩)⟩
  | pop =>
      simp only [dispatch] at ht
      split at ht <;>
        cases ht <;>
        exact ⟨rfl, _, rfl, .inr (.inr ⟨rfl, rfl, rfl⟩)⟩
  | receive | release | setStopped =>
      cases ht
      exact ⟨rfl, _, rfl, .inr (.inr ⟨rfl, rfl, rfl⟩)⟩
  | exited => cases ht

theorem Flag.dispatch (h : Flag s) {i : ℕ} {pc : Disp ι} (hi : s.dispatchers[i]? = some pc)
    (ht : dispatch s i pc = some t) : Flag t := by
  obtain ⟨hctl, new, hdisp, hcases⟩ := dispatch_flag ht
  have hlt : i < s.dispatchers.length := (List.getElem?_eq_some_iff.mp hi).1
  have hempty : t.dispatchers ≠ [] := by
    rw [hdisp]
    intro he
    rw [List.set_eq_nil_iff] at he
    rw [he] at hlt
    exact absurd hlt (Nat.not_lt_zero i)
  refine ⟨fun he => absurd he hempty, ?_⟩
  intro hf
  have hmem : new ∈ t.dispatchers := by
    rw [hdisp]
    exact List.mem_set hlt new
  rcases hcases with ⟨-, rfl, -⟩ | ⟨-, -, htrue⟩ | ⟨hold, -, hsame⟩
  · exact .inr (.inr ⟨_, hmem, rfl⟩)
  · rw [htrue] at hf
    cases hf
  · rw [hsame] at hf
    rcases h.reset hf with he | hc | ⟨d, hd, hnot⟩
    · rw [he] at hlt
      exact absurd hlt (Nat.not_lt_zero i)
    · exact .inr (.inl (hctl.trans hc))
    · obtain ⟨j, hj⟩ := List.mem_iff_getElem?.mp hd
      have hne : i ≠ j := by
        intro he
        rw [he, hj] at hi
        cases hi
        rw [hnot] at hold
        cases hold
      refine .inr (.inr ⟨d, ?_, hnot⟩)
      rw [hdisp]
      exact List.mem_iff_getElem?.mpr ⟨j, by rw [List.getElem?_set_ne hne, hj]⟩

-- Outside `startCreate` a step that keeps the dispatchers and the flag keeps what it says.
theorem Flag.same (h : Flag s) (hdisp : t.dispatchers = s.dispatchers)
    (hflag : t.nThrdStarted = s.nThrdStarted) (hctl : s.ctl = .startCreate → t.ctl = .startCreate) :
    Flag t := by
  refine ⟨?_, ?_⟩
  · intro he
    rw [hflag]
    exact h.never (hdisp ▸ he)
  · intro hf
    rw [hflag] at hf
    rw [hdisp]
    rcases h.reset hf with he | hc | hd
    · exact .inl he
    · exact .inr (.inl (hctl hc))
    · exact .inr (.inr hd)

theorem Flag.control (h : Flag s) (ht : control s s.ctl = some t) : Flag t := by
  cases hc : s.ctl with
  | idle =>
      rw [hc] at ht
      cases ht
  | startTest =>
      rw [hc] at ht
      simp only [LogThread.control] at ht
      split_ifs at ht <;> cases ht
      · exact h.same rfl rfl (by simp [hc])
      · exact ⟨fun _ => rfl, fun _ => .inr (.inl rfl)⟩
  | startCreate =>
      rw [hc] at ht
      cases ht
      refine ⟨fun he => by simp at he, fun _ => .inr (.inr ⟨.entry, by simp, rfl⟩)⟩
  | startDrain | stopTest | stopWait | stopDrainSync =>
      rw [hc] at ht
      simp only [LogThread.control] at ht
      split_ifs at ht <;>
        cases ht <;>
        exact h.same rfl rfl (by simp [hc])
  | stopDrainLogs =>
      rw [hc] at ht
      simp only [LogThread.control] at ht
      split at ht <;>
        cases ht <;>
        exact h.same rfl rfl (by simp [hc])
  | startResetQuit | startResetStopped | stopSetQuit | stopResetQuit =>
      rw [hc] at ht
      cases ht
      exact h.same rfl rfl (by simp [hc])

end

section

variable {κ : Type*} {receiveLog : κ → LogItem → ℤ} {recvs : List (LogReceiver κ)}

theorem doDispatch_eq_self {item : LogItem} (h : ∀ r ∈ recvs, receiveLog r.recv item = 0) :
    doDispatch receiveLog item recvs = recvs := by
  induction recvs with
  | nil => rfl
  | cons r rest ih =>
      rw [List.forall_mem_cons] at h
      rw [doDispatch, if_neg (not_not_intro h.1), ih h.2]

-- What the code does: the item of a call is delivered at once only when no
-- dispatcher was ever started.
def Record.Done (recvs : List (LogReceiver κ)) (r : Record κ) : Prop :=
  r.outcome = if r.phase = .never then .delivered r.item recvs else .queued r.item

-- What is asked for: the item is queued while a dispatcher runs and delivered
-- at once while none does.
def Record.Delivered (recvs : List (LogReceiver κ)) (r : Record κ) : Prop :=
  r.outcome = if r.phase = .running then .queued r.item else .delivered r.item recvs

theorem Record.Done.delivered_iff {r : Record κ} (h : r.Done recvs) :
    r.Delivered recvs ↔ r.phase ≠ .stopped := by
  unfold Done at h
  unfold Delivered
  rw [h]
  cases r.phase <;> simp

-- The call in progress, and those before it.
def Pending (recvs : List (LogReceiver κ)) (li : LogItem) (phase : Phase → Prop)
    (records : List (Record κ)) : Prop :=
  ∃ r rest, records = r :: rest ∧ r.item = li ∧ phase r.phase ∧ ∀ q ∈ rest, q.Done recvs

def InCall (recvs : List (LogReceiver κ)) (s : State LogItem) (records : List (Record κ)) :
    Append LogItem → Prop
  | .idle | .signal | .unlock => ∀ r ∈ records, r.Done recvs
  | .test li => Pending recvs li (fun phase => phase = .never ↔ s.dispatchers = []) records
  | .lockLogs li | .push li => Pending recvs li (· ≠ .never) records
  | .lockDisp li | .receive li => Pending recvs li (· = .never) records

structure Valid (recvs : List (LogReceiver κ)) (s : Session κ) : Prop where
  flag : Flag s.thread
  busy : s.thread.appenders 0 ≠ .idle →
    s.thread.ctl = .idle ∧ ∀ d ∈ s.thread.dispatchers, d.begun
  inCall : InCall recvs s.thread s.records (s.thread.appenders 0)

theorem State.phase_never_iff (s : State LogItem) : s.phase = .never ↔ s.dispatchers = [] := by
  unfold State.phase
  rw [← List.isEmpty_iff]
  split_ifs <;> simp_all

-- Once every dispatcher has begun, the flag says whether there ever was one.
theorem Flag.iff {s : State LogItem} (h : Flag s) (hctl : s.ctl = .idle)
    (hbegun : ∀ d ∈ s.dispatchers, d.begun) : s.nThrdStarted = false ↔ s.dispatchers = [] := by
  refine ⟨?_, h.never⟩
  intro hf
  rcases h.reset hf with he | hc | ⟨d, hd, hnot⟩
  · exact he
  · rw [hctl] at hc
    cases hc
  · rw [hbegun d hd] at hnot
    cases hnot

theorem dispatch_begun {s t : State LogItem} {i : ℕ} {pc : Disp LogItem}
    (hi : s.dispatchers[i]? = some pc) (ht : dispatch s i pc = some t)
    (h : ∀ d ∈ s.dispatchers, d.begun) :
    (∀ d ∈ t.dispatchers, d.begun) ∧ (t.dispatchers = [] ↔ s.dispatchers = []) := by
  obtain ⟨-, new, hdisp, hcases⟩ := dispatch_flag ht
  have hold := h pc (List.mem_of_getElem? hi)
  rw [hdisp]
  refine ⟨?_, List.set_eq_nil_iff _ _⟩
  intro d hd
  rcases List.mem_or_eq_of_mem_set hd with hd | rfl
  · exact h d hd
  · rcases hcases with ⟨rfl, -⟩ | ⟨-, hnew, -⟩ | ⟨-, hnew, -⟩
    · cases hold
    · exact hnew
    · exact hnew

theorem Valid.disp {s : Session κ} (hv : Valid recvs s) {i : ℕ} {t : State LogItem}
    (ht : step s.thread (.disp i) = some t) :
    Valid recvs { thread := t, records := s.records } := by
  obtain ⟨pc, hi, ht⟩ := Option.bind_eq_some_iff.mp ht
  obtain ⟨new, hs⟩ := dispatch_step ht
  have happ : t.appenders 0 = s.thread.appenders 0 := by rw [hs.appenders]
  refine ⟨hv.flag.dispatch hi ht, ?_, ?_⟩
  · intro hbusy
    rw [happ] at hbusy
    obtain ⟨hctl, hbegun⟩ := hv.busy hbusy
    exact ⟨hs.ctl.trans hctl, (dispatch_begun hi ht hbegun).1⟩
  · have hc := hv.inCall
    simp only [happ]
    cases hpc : s.thread.appenders 0 with
    | test li =>
        rw [hpc] at hc
        obtain ⟨-, hbegun⟩ := hv.busy (by simp [hpc])
        simp only [InCall, (dispatch_begun hi ht hbegun).2]
        exact hc
    | _ =>
        rw [hpc] at hc
        exact hc

theorem append_flag {s t : State LogItem} {c : ℕ} {pc : Append LogItem}
    (ht : append s c pc = some t) : t.nThrdStarted = s.nThrdStarted := by
  cases pc with
  | idle => cases ht
  | lockLogs | lockDisp =>
      simp only [append] at ht
      split_ifs at ht
      cases ht
      rfl
  | _ =>
      cases ht
      rfl

-- A step of the caller in its `append_log`, with what it writes down.
theorem Valid.moveAppend {s : Session κ} (hv : Valid recvs s) {t : State LogItem}
    {new : Append LogItem} (ht : LogThread.append s.thread 0 (s.thread.appenders 0) = some t)
    (hpc : t.appenders 0 = new) {records : List (Record κ)} (hc : InCall recvs t records new) :
    Valid recvs { thread := t, records := records } := by
  obtain ⟨new', hs⟩ := append_step ht
  have hbusy : s.thread.appenders 0 ≠ .idle := by
    intro hidle
    rw [hidle] at ht
    cases ht
  refine ⟨?_, ?_, ?_⟩
  · refine hv.flag.same hs.dispatchers (append_flag ht) ?_
    intro hctl
    rw [hs.ctl]
    exact hctl
  · intro _
    obtain ⟨hctl, hbegun⟩ := hv.busy hbusy
    rw [← hs.dispatchers] at hbegun
    exact ⟨hs.ctl.trans hctl, hbegun⟩
  · rw [hpc]
    exact hc

theorem Pending.done {li : LogItem} {phase : Phase → Prop} {records : List (Record κ)}
    (h : Pending recvs li phase records) {outcome : Outcome κ}
    (hout : ∀ ph, phase ph → outcome = if ph = .never then .delivered li recvs else .queued li) :
    ∃ r rest, records = r :: rest ∧ ∀ q ∈ { r with outcome := outcome } :: rest, q.Done recvs := by
  obtain ⟨r, rest, rfl, rfl, hphase, hrest⟩ := h
  refine ⟨r, rest, rfl, ?_⟩
  rw [List.forall_mem_cons]
  exact ⟨hout r.phase hphase, hrest⟩

theorem State.setAppend_self (s : State LogItem) (c : ℕ) (pc : Append LogItem) :
    (s.setAppend c pc).appenders c = pc := by
  simp only [State.setAppend, Function.update_self]

theorem Valid.append (hzero : ∀ r ∈ recvs, ∀ li, receiveLog r.recv li = 0) {s : Session κ}
    (hv : Valid recvs s) {t : State LogItem} (ht : step s.thread (.append 0) = some t) :
    Valid recvs
      { thread := t, records := recordStep receiveLog recvs s.thread (.append 0) s.records } := by
  have hstep : LogThread.append s.thread 0 (s.thread.appenders 0) = some t := ht
  have hc := hv.inCall
  cases hpc : s.thread.appenders 0 with
  | idle =>
      rw [hpc] at hstep
      cases hstep
  | test li =>
      rw [hpc] at hstep hc
      obtain ⟨hctl, hbegun⟩ := hv.busy (by simp [hpc])
      have hflag := hv.flag.iff hctl hbegun
      obtain ⟨r, rest, hr, hitem, hphase, hrest⟩ := hc
      simp only [LogThread.append] at hstep
      simp only [recordStep, hpc]
      split_ifs at hstep with hstarted
      · cases hstep
        refine hv.moveAppend ht (State.setAppend_self ..) ⟨r, rest, hr, hitem, ?_, hrest⟩
        intro hnever
        have hf := hflag.mpr (hphase.mp hnever)
        rw [hstarted] at hf
        cases hf
      · cases hstep
        refine hv.moveAppend ht (State.setAppend_self ..) ⟨r, rest, hr, hitem, ?_, hrest⟩
        rw [Bool.not_eq_true] at hstarted
        exact hphase.mpr (hflag.mp hstarted)
  | lockLogs li =>
      rw [hpc] at hstep hc
      simp only [LogThread.append] at hstep
      split_ifs at hstep
      cases hstep
      simp only [recordStep, hpc]
      exact hv.moveAppend ht (State.setAppend_self ..) hc
  | push li =>
      rw [hpc] at hstep hc
      cases hstep
      have hp : Pending recvs li (· ≠ .never) s.records := hc
      obtain ⟨r, rest, hr, hdone⟩ := hp.done fun ph hph => (if_neg hph).symm
      simp only [recordStep, hpc, hr]
      exact hv.moveAppend ht (State.setAppend_self ..) hdone
  | signal =>
      rw [hpc] at hstep hc
      cases hstep
      simp only [recordStep, hpc]
      exact hv.moveAppend ht (State.setAppend_self ..) hc
  | unlock =>
      rw [hpc] at hstep hc
      cases hstep
      simp only [recordStep, hpc]
      exact hv.moveAppend ht (State.setAppend_self ..) hc
  | lockDisp li =>
      rw [hpc] at hstep hc
      simp only [LogThread.append] at hstep
      split_ifs at hstep
      cases hstep
      simp only [recordStep, hpc]
      exact hv.moveAppend ht (State.setAppend_self ..) hc
  | receive li =>
      rw [hpc] at hstep hc
      cases hstep
      have hp : Pending recvs li (· = .never) s.records := hc
      obtain ⟨r, rest, hr, hdone⟩ := hp.done fun ph hph => (if_pos hph).symm
      have hall := doDispatch_eq_self (fun r hr => hzero r hr li)
      simp only [recordStep, hpc, hr, hall]
      exact hv.moveAppend ht (State.setAppend_self ..) hdone

theorem Valid.control {s : Session κ} (hv : Valid recvs s) {t : State LogItem}
    (hs : ControlStep s.thread t) (hidle : s.thread.appenders 0 = .idle) (hflag : Flag t) :
    Valid recvs { thread := t, records := s.records } := by
  have happ : t.appenders 0 = .idle := by
    rw [hs.appenders]
    exact hidle
  have hc := hv.inCall
  rw [hidle] at hc
  refine ⟨hflag, fun hbusy => absurd happ hbusy, ?_⟩
  simp only [happ]
  exact hc

-- While `start` or `stop` is in progress the caller is not in `append_log`.
theorem Valid.idle_of_ctl {s : Session κ} (hv : Valid recvs s) (hctl : s.thread.ctl ≠ .idle) :
    s.thread.appenders 0 = .idle := by
  by_contra hbusy
  exact hctl (hv.busy hbusy).1

theorem Valid.step (hzero : ∀ r ∈ recvs, ∀ li, receiveLog r.recv li = 0) {s t : Session κ}
    {a : Action LogItem} (hv : Valid recvs s) (ht : sessionStep receiveLog recvs s a = some t) :
    Valid recvs t := by
  unfold sessionStep at ht
  split_ifs at ht with hallowed
  obtain ⟨u, hu, rfl⟩ := Option.map_eq_some_iff.mp ht
  cases a with
  | disp i => exact hv.disp hu
  | append c =>
      cases hallowed
      exact hv.append hzero hu
  | appendLog c li =>
      obtain ⟨rfl, hctl, hidle, hbegun⟩ := hallowed
      obtain ⟨-, hs⟩ := appendLog_step hu
      have hpc : u.appenders 0 = .test li := by
        rw [hs.appenders, Function.update_self]
      have hc := hv.inCall
      rw [hidle] at hc
      refine ⟨?_, ?_, ?_⟩
      · simp only [LogThread.step, hidle] at hu
        cases hu
        exact hv.flag.same rfl rfl id
      · intro _
        rw [hs.ctl, hs.dispatchers]
        exact ⟨hctl, hbegun⟩
      · simp only [hpc, recordStep]
        refine ⟨_, _, rfl, rfl, ?_, hc⟩
        rw [hs.dispatchers]
        exact s.thread.phase_never_iff
  | start | stop =>
      obtain ⟨hctl, hidle, -⟩ := hallowed
      refine hv.control (call_step (by simp) hu) hidle ?_
      simp only [LogThread.step] at hu
      split_ifs at hu
      cases hu
      exact hv.flag.same rfl rfl (by simp [hctl])
  | ctl =>
      have hctl : s.thread.ctl ≠ .idle := by
        intro hidle
        simp only [LogThread.step, hidle, LogThread.control, reduceCtorEq] at hu
      exact hv.control (control_step hu) (hv.idle_of_ctl hctl) (hv.flag.control hu)
  | spurious =>
      obtain ⟨hctl, rfl, hs⟩ := spurious_step hu
      exact hv.control hs (hv.idle_of_ctl (by simp [hctl])) (hv.flag.same rfl rfl (by simp [hctl]))

theorem reachable_valid (hzero : ∀ r ∈ recvs, ∀ li, receiveLog r.recv li = 0) {s : Session κ}
    (h : (session receiveLog recvs).Reachable s) : Valid recvs s := by
  refine System.Reachable.invariant (S := session receiveLog recvs) (I := Valid recvs) ?_ ?_ h
  · intro s hinit
    obtain ⟨pThread, rfl⟩ := hinit
    refine ⟨⟨fun _ => rfl, fun _ => .inl rfl⟩, fun hbusy => absurd rfl hbusy, ?_⟩
    intro r hr
    cases hr
  · intro s a t hv ht
    exact hv.step hzero ht

-- What holds the caller back is at most a dispatcher: nobody else calls.
structure Alone (s : State LogItem) : Prop where
  locked : Locked s
  others : ∀ c, c ≠ 0 → s.appenders c = .idle

theorem Alone.step {s t : Session κ} {a : Action LogItem} (h : Alone s.thread)
    (ht : sessionStep receiveLog recvs s a = some t) : Alone t.thread := by
  unfold sessionStep at ht
  split_ifs at ht with hallowed
  obtain ⟨u, hu, rfl⟩ := Option.map_eq_some_iff.mp ht
  refine ⟨h.locked.step hu, ?_⟩
  intro c hc
  have hold := h.others c hc
  cases a with
  | disp i =>
      obtain ⟨pc, -, hu⟩ := Option.bind_eq_some_iff.mp hu
      obtain ⟨new, hs⟩ := dispatch_step hu
      rw [hs.appenders]
      exact hold
  | append d =>
      cases hallowed
      obtain ⟨new, hs⟩ := append_step hu
      rw [hs.appenders, Function.update_of_ne hc]
      exact hold
  | appendLog d li =>
      obtain ⟨rfl, -⟩ := hallowed
      obtain ⟨-, hs⟩ := appendLog_step hu
      rw [hs.appenders, Function.update_of_ne hc]
      exact hold
  | ctl =>
      rw [(control_step hu).appenders]
      exact hold
  | start | stop =>
      rw [(call_step (by simp) hu).appenders]
      exact hold
  | spurious =>
      rw [(spurious_step hu).2.2.appenders]
      exact hold

theorem reachable_alone {s : Session κ} (h : (session receiveLog recvs).Reachable s) :
    Alone s.thread := by
  refine System.Reachable.invariant (S := session receiveLog recvs)
    (I := fun s => Alone s.thread) ?_ ?_ h
  · intro s hinit
    obtain ⟨pThread, rfl⟩ := hinit
    exact ⟨idle_locked ⟨rfl, rfl, rfl⟩ (by simp [constructed]) fun _ => rfl, fun _ _ => rfl⟩
  · intro s a t hi ht
    exact hi.step ht

-- How many steps the caller is from its return, with one more where a dispatcher
-- has the lock that it needs.
def State.left (s : State LogItem) : ℕ :=
  match s.appenders 0 with
  | .idle => 0
  | .receive _ | .unlock => 1
  | .signal => 2
  | .push _ => 3
  | .lockDisp _ => if s.lockDisp = none then 2 else 3
  | .lockLogs _ => if s.lockLogs = none then 4 else 5
  | .test _ => 6

theorem Alone.logs_owner {s : State LogItem} (h : Alone s) (hctl : s.ctl = .idle)
    {li : LogItem} (hpc : s.appenders 0 = .lockLogs li) (hheld : s.lockLogs ≠ none) :
    ∃ i : ℕ, s.dispatchers[i]? = some .pop := by
  obtain ⟨o, ho⟩ := Option.ne_none_iff_exists'.mp hheld
  have hin := (h.locked.logs o).mpr ho
  cases o with
  | disp i => exact ⟨i, hin⟩
  | app c =>
      by_cases hc : c = 0
      · subst hc
        simp only [State.InsideLogs, hpc, Append.Queuing] at hin
      · simp only [State.InsideLogs, h.others c hc, Append.Queuing] at hin
  | ctl => exact absurd hctl hin

theorem Alone.disp_owner {s : State LogItem} (h : Alone s) {li : LogItem}
    (hpc : s.appenders 0 = .lockDisp li) (hheld : s.lockDisp ≠ none) :
    ∃ (i : ℕ) (li' : LogItem), s.dispatchers[i]? = some (.receive li') := by
  obtain ⟨o, ho⟩ := Option.ne_none_iff_exists'.mp hheld
  have hin := (h.locked.disp o).mpr ho
  cases o with
  | disp i =>
      obtain ⟨d, hd, hr⟩ := hin
      cases d with
      | receive li' => exact ⟨i, li', hd⟩
      | _ => exact absurd hr id
  | app c =>
      by_cases hc : c = 0
      · subst hc
        simp only [State.InsideDisp, hpc, Append.Receiving] at hin
      · simp only [State.InsideDisp, h.others c hc, Append.Receiving] at hin
  | ctl => exact absurd hin id

theorem append_left {s t : State LogItem} (ht : append s 0 (s.appenders 0) = some t) :
    t.left < s.left := by
  cases hpc : s.appenders 0 with
  | idle =>
      rw [hpc] at ht
      cases ht
  | test li =>
      rw [hpc] at ht
      simp only [append] at ht
      split_ifs at ht <;> cases ht
      · simp only [State.left, hpc, State.setAppend_self]
        split_ifs <;> omega
      · simp only [State.left, hpc, State.setAppend_self]
        split_ifs <;> omega
  | lockLogs li | lockDisp li =>
      rw [hpc] at ht
      simp only [append] at ht
      split_ifs at ht with hfree
      cases ht
      simp only [State.left, hpc, State.setAppend_self, if_pos hfree]
      omega
  | push li | signal | unlock | receive li =>
      rw [hpc] at ht
      cases ht
      simp only [State.left, hpc, State.setAppend_self]
      omega

-- The caller, or the dispatcher that it waits for, can make a step.
theorem Valid.exists_step {s : Session κ} (hv : Valid recvs s) (ha : Alone s.thread)
    (hbusy : s.thread.appenders 0 ≠ .idle) :
    ∃ a t, (a = .append 0 ∨ ∃ i, a = .disp i) ∧ LogThread.step s.thread a = some t ∧
      t.left < s.thread.left := by
  obtain ⟨hctl, -⟩ := hv.busy hbusy
  by_cases hown : ∃ t, LogThread.append s.thread 0 (s.thread.appenders 0) = some t
  · obtain ⟨t, ht⟩ := hown
    exact ⟨.append 0, t, .inl rfl, ht, append_left ht⟩
  · cases hpc : s.thread.appenders 0 with
    | idle => exact absurd hpc hbusy
    | lockLogs li =>
        have hheld : s.thread.lockLogs ≠ none := by
          intro hfree
          exact hown ⟨_, by rw [hpc, LogThread.append, if_pos hfree]⟩
        obtain ⟨i, hi⟩ := ha.logs_owner hctl hpc hheld
        have hstep : ∃ t, LogThread.step s.thread (.disp i) = some t ∧ t.lockLogs = none := by
          simp only [LogThread.step, hi, Option.bind_some, dispatch]
          split <;> exact ⟨_, rfl, rfl⟩
        obtain ⟨t, ht, hfree⟩ := hstep
        refine ⟨.disp i, t, .inr ⟨i, rfl⟩, ht, ?_⟩
        obtain ⟨pc, -, ht⟩ := Option.bind_eq_some_iff.mp ht
        obtain ⟨new, hs⟩ := dispatch_step ht
        simp only [State.left, hs.appenders, hpc, if_pos hfree, if_neg hheld]
        omega
    | lockDisp li =>
        have hheld : s.thread.lockDisp ≠ none := by
          intro hfree
          exact hown ⟨_, by rw [hpc, LogThread.append, if_pos hfree]⟩
        obtain ⟨i, li', hi⟩ := ha.disp_owner hpc hheld
        have ht : LogThread.step s.thread (.disp i) =
            some ({ s.thread with lockDisp := none }.setDisp i (.release li')) := by
          simp only [LogThread.step, hi, Option.bind_some, dispatch]
        refine ⟨.disp i, _, .inr ⟨i, rfl⟩, ht, ?_⟩
        simp only [State.left, State.setDisp, hpc, if_true, if_neg hheld]
        omega
    | test li | push li | signal | unlock | receive li => exact absurd ⟨_, by rw [hpc]; rfl⟩ hown

-- The calls of a session, without what became of their items.
def Session.calls (s : Session κ) : List (Phase × LogItem) :=
  s.records.map fun r => (r.phase, r.item)

theorem recordStep_calls (s : State LogItem) {a : Action LogItem}
    (ha : a = .append 0 ∨ ∃ i, a = .disp i) (records : List (Record κ)) :
    (recordStep receiveLog recvs s a records).map (fun r => (r.phase, r.item)) =
      records.map fun r => (r.phase, r.item) := by
  rcases ha with rfl | ⟨i, rfl⟩
  · simp only [recordStep]
    split <;> rfl
  · rfl

-- A call of `append_log` returns, and no other call is needed for it.
theorem append_returns (hzero : ∀ r ∈ recvs, ∀ li, receiveLog r.recv li = 0) {s : Session κ}
    (h : (session receiveLog recvs).Reachable s) :
    ∃ actions t, (session receiveLog recvs).run s actions = some t ∧ t.calls = s.calls ∧
      t.thread.appenders 0 = .idle := by
  have hstep : ∀ u : Session κ, Valid recvs u ∧ Alone u.thread ∧ u.calls = s.calls →
      u.thread.appenders 0 = .idle ∨ ∃ a t, (session receiveLog recvs).step u a = some t ∧
        (Valid recvs t ∧ Alone t.thread ∧ t.calls = s.calls) ∧ t.thread.left < u.thread.left := by
    intro u hu
    obtain ⟨hv, halone, hcalls⟩ := hu
    by_cases hbusy : u.thread.appenders 0 = .idle
    · exact .inl hbusy
    · obtain ⟨a, t, ha, ht, hlt⟩ := hv.exists_step halone hbusy
      have hallowed : Allowed u.thread a := by
        rcases ha with rfl | ⟨i, rfl⟩
        · rfl
        · trivial
      have hs : (session receiveLog recvs).step u a =
          some { thread := t, records := recordStep receiveLog recvs u.thread a u.records } := by
        simp only [session, sessionStep, if_pos hallowed, ht, Option.map_some]
      refine .inr ⟨a, _, hs, ⟨hv.step hzero hs, halone.step hs, ?_⟩, hlt⟩
      rw [← hcalls]
      exact recordStep_calls u.thread ha u.records
  obtain ⟨actions, t, hr, ⟨-, -, hcalls⟩, hidle⟩ := System.exists_run_of_rank
    (fun u : Session κ => u.thread.left) hstep ⟨reachable_valid hzero h, reachable_alone h, rfl⟩
  exact ⟨actions, t, hr, hcalls, hidle⟩

-- Every `append_log` call returns. Its item has then been queued where a
-- dispatcher was running and been delivered where none was, unless the call came
-- between a `stop` and the next `start`.
theorem append_delivered_iff (hzero : ∀ r ∈ recvs, ∀ li, receiveLog r.recv li = 0) {s : Session κ}
    (h : (session receiveLog recvs).Reachable s) :
    (∃ actions t, (session receiveLog recvs).run s actions = some t ∧ t.calls = s.calls ∧
      t.thread.appenders 0 = .idle) ∧
    (s.thread.appenders 0 = .idle → ∀ r ∈ s.records, r.Delivered recvs ↔ r.phase ≠ .stopped) := by
  refine ⟨append_returns hzero h, ?_⟩
  intro hidle r hr
  have hc := (reachable_valid hzero h).inCall
  rw [hidle] at hc
  exact (hc r hr).delivered_iff

end

-- A receiver for every title.
def anyTitle : LogReceiver ℕ := newReceiver 0 none false

def logLine (log : String) : LogItem :=
  { eLevel := .INFO, strModule := "asr", strTitle := "talk", strLog := log, nThrdId := 1 }

-- One item before `start`, and one while the dispatcher runs.
def oneCycle : List (Action LogItem) :=
  [.appendLog 0 (logLine "a"), .append 0, .append 0, .append 0, .start, .ctl, .ctl, .ctl, .ctl, .ctl,
    .disp 0, .disp 0, .appendLog 0 (logLine "b"), .append 0, .append 0, .append 0, .append 0,
    .append 0]

theorem append_delivered_one_cycle : ∃ s, (session (fun _ _ => 0) [anyTitle]).Reachable s ∧
    s.calls = [(.running, logLine "b"), (.never, logLine "a")] ∧
    ∀ r ∈ s.records, r.Delivered [anyTitle] := by
  obtain ⟨s, hs⟩ : ∃ s, (session (fun _ _ => 0) [anyTitle]).run
      { thread := constructed LogItem false, records := [] } oneCycle = some s := ⟨_, rfl⟩
  have hreach : (session (fun _ _ => 0) [anyTitle]).Reachable s :=
    System.Reachable.run (.init ⟨false, rfl⟩) hs
  have hidle : s.thread.appenders 0 = .idle := by
    cases hs
    rfl
  have hcalls : s.calls = [(.running, logLine "b"), (.never, logLine "a")] := by
    cases hs
    rfl
  refine ⟨s, hreach, hcalls, ?_⟩
  intro r hr
  refine ((append_delivered_iff (fun _ _ _ => rfl) hreach).2 hidle r hr).mpr ?_
  have hmem : (r.phase, r.item) ∈ s.calls := List.mem_map_of_mem hr
  rw [hcalls] at hmem
  simp only [List.mem_cons, Prod.mk.injEq, List.not_mem_nil, or_false] at hmem
  rcases hmem with ⟨hphase, -⟩ | ⟨hphase, -⟩
  · rw [hphase]
    decide
  · rw [hphase]
    decide

-- `start`, `stop`, and an item after them.
def afterStop : List (Action LogItem) :=
  [.start, .ctl, .ctl, .ctl, .ctl, .ctl, .disp 0, .disp 0, .stop, .ctl, .ctl, .disp 0, .disp 0,
    .ctl, .ctl, .ctl, .ctl, .appendLog 0 (logLine "c"), .append 0, .append 0, .append 0, .append 0,
    .append 0]

-- `stop` leaves `_n_thrd_started` at 1, and the item stays in `_logs`.
theorem append_not_delivered : ¬∀ (κ : Type) (receiveLog : κ → LogItem → ℤ)
    (recvs : List (LogReceiver κ)) (s : Session κ), recvs ≠ [] →
    (∀ r ∈ recvs, ∀ li, receiveLog r.recv li = 0) → (session receiveLog recvs).Reachable s →
    s.thread.appenders 0 = .idle → ∀ r ∈ s.records, r.Delivered recvs := by
  intro h
  obtain ⟨s, hs⟩ : ∃ s, (session (fun _ _ => 0) [anyTitle]).run
      { thread := constructed LogItem false, records := [] } afterStop = some s := ⟨_, rfl⟩
  have hreach : (session (fun _ _ => 0) [anyTitle]).Reachable s :=
    System.Reachable.run (.init ⟨false, rfl⟩) hs
  have hall := h ℕ (fun _ _ => 0) [anyTitle] s (by simp) (fun _ _ _ => rfl) hreach
  cases hs
  have hr := hall rfl _ (List.mem_cons_self ..)
  cases hr

end AsrServiceProxy.Log.LogThread
