import AsrServiceProxy.Lib.Counting
import AsrServiceProxy.Lib.Transition

namespace AsrServiceProxy.Log.LogThread

open Transition

-- Where a dispatcher thread is inside `dispatch`.
inductive Disp (ι : Type*) where
  | entry
  | publish
  | testQuit
  | waitSync
  | lockLogs
  | pop
  | lockDisp (li : ι)
  | receive (li : ι)
  | release (li : ι)
  | setStopped
  | exited
deriving DecidableEq, Repr

-- Where a thread is inside `append_log`.
inductive Append (ι : Type*) where
  | idle
  | test (li : ι)
  | lockLogs (li : ι)
  | push (li : ι)
  | signal
  | unlock
  | lockDisp (li : ι)
  | receive (li : ι)
deriving DecidableEq, Repr

-- Where the `start` or `stop` call is that holds `_lock_logs`. Both hold it from
-- their first to their last step, so there is at most one.
inductive Control where
  | idle
  | startDrain
  | startResetQuit
  | startResetStopped
  | startTest
  | startCreate
  | stopTest
  | stopSetQuit
  | stopWait
  | stopResetQuit
  | stopDrainLogs
  | stopDrainSync
deriving DecidableEq, Repr

inductive Owner where
  | disp (i : ℕ)
  | app (c : ℕ)
  | ctl
deriving DecidableEq, Repr

-- `_p_thread` is only tested against zero. The constructor leaves it unset.
structure State (ι : Type*) where
  lockLogs : Option Owner
  lockDisp : Option Owner
  logs : List ι
  logSync : ℕ
  evQuit : Bool
  evStopped : Bool
  pThread : Bool
  bStarted : Bool
  nThrdStarted : Bool
  dispatchers : List (Disp ι)
  appenders : ℕ → Append ι
  ctl : Control

-- Both events are manual-reset. `spurious` is a return of `_ev_stopped.wait(-1)`
-- without the event, which `stop` does not test.
inductive Action (ι : Type*) where
  | disp (i : ℕ)
  | appendLog (c : ℕ) (li : ι)
  | append (c : ℕ)
  | start
  | stop
  | ctl
  | spurious
deriving DecidableEq, Repr

variable {ι : Type*}

def State.setDisp (s : State ι) (i : ℕ) (disp : Disp ι) : State ι :=
  { s with dispatchers := s.dispatchers.set i disp }

def State.setAppend (s : State ι) (c : ℕ) (append : Append ι) : State ι :=
  { s with appenders := Function.update s.appenders c append }

-- One step of `dispatch`. A wait for a token ends with a token when there is
-- one and else, after a time-out or a spurious wakeup, at the loop's test.
def dispatch (s : State ι) (i : ℕ) : Disp ι → Option (State ι)
  | .entry => some ({ s with bStarted := true }.setDisp i .publish)
  | .publish => some ({ s with nThrdStarted := true }.setDisp i .testQuit)
  | .testQuit => some (s.setDisp i (if s.evQuit then .setStopped else .waitSync))
  | .waitSync =>
      if 0 < s.logSync then some ({ s with logSync := s.logSync - 1 }.setDisp i .lockLogs)
      else some (s.setDisp i .testQuit)
  | .lockLogs =>
      if s.lockLogs = none then some ({ s with lockLogs := some (.disp i) }.setDisp i .pop)
      else none
  | .pop =>
      match s.logs with
      | [] => some ({ s with lockLogs := none }.setDisp i .testQuit)
      | li :: rest => some ({ s with lockLogs := none, logs := rest }.setDisp i (.lockDisp li))
  | .lockDisp li =>
      if s.lockDisp = none then some ({ s with lockDisp := some (.disp i) }.setDisp i (.receive li))
      else none
  | .receive li => some ({ s with lockDisp := none }.setDisp i (.release li))
  | .release _ => some (s.setDisp i .testQuit)
  | .setStopped => some ({ s with evStopped := true }.setDisp i .exited)
  | .exited => none

-- One step of `append_log`. `add_ref` and `push_back` are one step: both are
-- under `_lock_logs`.
def append (s : State ι) (c : ℕ) : Append ι → Option (State ι)
  | .idle => none
  | .test li => some (s.setAppend c (if s.nThrdStarted then .lockLogs li else .lockDisp li))
  | .lockLogs li =>
      if s.lockLogs = none then some ({ s with lockLogs := some (.app c) }.setAppend c (.push li))
      else none
  | .push li => some ({ s with logs := s.logs ++ [li] }.setAppend c .signal)
  | .signal => some ({ s with logSync := s.logSync + 1 }.setAppend c .unlock)
  | .unlock => some ({ s with lockLogs := none }.setAppend c .idle)
  | .lockDisp li =>
      if s.lockDisp = none then
        some ({ s with lockDisp := some (.app c) }.setAppend c (.receive li))
      else none
  | .receive _ => some ({ s with lockDisp := none }.setAppend c .idle)

-- One step of the `start` or `stop` call in progress. `release` and `erase` of
-- the oldest item are one step.
def control (s : State ι) : Control → Option (State ι)
  | .idle => none
  | .startDrain =>
      if 0 < s.logSync then some { s with logSync := s.logSync - 1 }
      else some { s with ctl := .startResetQuit }
  | .startResetQuit => some { s with evQuit := false, ctl := .startResetStopped }
  | .startResetStopped => some { s with evStopped := false, ctl := .startTest }
  | .startTest =>
      if s.pThread then some { s with lockLogs := none, ctl := .idle }
      else some { s with nThrdStarted := false, ctl := .startCreate }
  | .startCreate =>
      some { s with
        dispatchers := s.dispatchers ++ [.entry]
        pThread := true
        lockLogs := none
        ctl := .idle }
  | .stopTest =>
      if s.pThread then
        if s.bStarted then some { s with ctl := .stopSetQuit }
        else some { s with pThread := false, ctl := .stopDrainLogs }
      else some { s with ctl := .stopDrainLogs }
  | .stopSetQuit => some { s with evQuit := true, ctl := .stopWait }
  | .stopWait =>
      if s.evStopped then some { s with pThread := false, ctl := .stopResetQuit } else none
  | .stopResetQuit => some { s with evQuit := false, ctl := .stopDrainLogs }
  | .stopDrainLogs =>
      match s.logs with
      | [] => some { s with ctl := .stopDrainSync }
      | _ :: rest => some { s with logs := rest }
  | .stopDrainSync =>
      if 0 < s.logSync then some { s with logSync := s.logSync - 1 }
      else some { s with lockLogs := none, ctl := .idle }

def step (s : State ι) : Action ι → Option (State ι)
  | .disp i => s.dispatchers[i]?.bind (dispatch s i)
  | .appendLog c li =>
      match s.appenders c with
      | .idle => some (s.setAppend c (.test li))
      | _ => none
  | .append c => append s c (s.appenders c)
  | .start =>
      if s.lockLogs = none then some { s with lockLogs := some .ctl, ctl := .startDrain } else none
  | .stop =>
      if s.lockLogs = none then some { s with lockLogs := some .ctl, ctl := .stopTest } else none
  | .ctl => control s s.ctl
  | .spurious =>
      match s.ctl with
      | .stopWait => some { s with pThread := false, ctl := .stopResetQuit }
      | _ => none

inductive RefOp (ι : Type*) where
  | addRef (li : ι)
  | release (li : ι)
deriving DecidableEq, Repr

-- What a step does to the reference count of an item.
def refOp (s : State ι) : Action ι → Option (RefOp ι)
  | .disp i =>
      match s.dispatchers[i]? with
      | some (.release li) => some (.release li)
      | _ => none
  | .append c =>
      match s.appenders c with
      | .push li => some (.addRef li)
      | _ => none
  | .ctl =>
      match s.ctl, s.logs with
      | .stopDrainLogs, li :: _ => some (.release li)
      | _, _ => none
  | _ => none

-- The object as its constructor leaves it.
def constructed (ι : Type*) (pThread : Bool) : State ι :=
  { lockLogs := none
    lockDisp := none
    logs := []
    logSync := 0
    evQuit := false
    evStopped := false
    pThread := pThread
    bStarted := false
    nThrdStarted := false
    dispatchers := []
    appenders := fun _ => .idle
    ctl := .idle }

-- Any calls in any order on one `CLogThread`.
def system (ι : Type*) : System (State ι) (Action ι) where
  init s := ∃ pThread, s = constructed ι pThread
  step := step

-- A `CLogThread` whose `start` has returned, and no further call of `start`.
def runningSystem (ι : Type*) : System (State ι) (Action ι) where
  init s := s = { constructed ι true with dispatchers := [.entry] }
  step s a :=
    match a with
    | .start => none
    | a => step s a

end AsrServiceProxy.Log.LogThread
