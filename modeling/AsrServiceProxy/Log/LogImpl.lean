import AsrServiceProxy.Log.LogThread

namespace AsrServiceProxy.Log.LogImpl

open LogThread (RefOp)
open Transition

-- Where an `append_log` call is. A call and the `LogItem` that it creates have
-- the same number.
inductive Call (τ : Type*) where
  | lockThrds
  | visit (rest : List τ)
  | inThread (t : τ) (rest : List τ)
  | inOwn
  | release
  | done
deriving DecidableEq, Repr

-- Where the `stop` call is that holds `_lock_thrds`. The destructor of a
-- dedicated thread stops it once more.
inductive Stop (τ : Type*) where
  | idle
  | visit (rest : List τ)
  | inThread (t : τ) (rest : List τ)
  | destroy (t : τ) (rest : List τ)
  | inDestroy (t : τ) (rest : List τ)
  | own
  | inOwn
deriving DecidableEq, Repr

inductive Owner where
  | call (x : ℕ)
  | stop
deriving DecidableEq, Repr

-- `threads none` is the `CLogThread` that the `CLogImpl` itself is. `deletes`
-- counts how often an item was deleted.
structure State (τ : Type*) where
  threads : Option τ → LogThread.State ℕ
  lockThrds : Option Owner
  thrds : List τ
  calls : List (Call τ)
  stopper : Stop τ
  nRef : ℕ → ℤ
  deletes : ℕ → ℕ

-- `isMatch` is what `th->match(li)` answers. A thread's own steps, and calls of
-- its `start` and `stop` from elsewhere, are `thread` actions.
inductive Action (τ : Type*) where
  | appendLog
  | call (x : ℕ) (isMatch : Bool)
  | thread (t : Option τ) (a : LogThread.Action ℕ)
  | stop
  | stopper

variable {τ : Type*} [DecidableEq τ]

def State.addRef (s : State τ) (x : ℕ) : State τ :=
  { s with nRef := Function.update s.nRef x (s.nRef x + 1) }

def State.release (s : State τ) (x : ℕ) : State τ :=
  { s with
    nRef := Function.update s.nRef x (s.nRef x - 1)
    deletes :=
      if s.nRef x - 1 = 0 then Function.update s.deletes x (s.deletes x + 1) else s.deletes }

def State.applyRef (s : State τ) : Option (RefOp ℕ) → State τ
  | none => s
  | some (.addRef x) => s.addRef x
  | some (.release x) => s.release x

def State.setCall (s : State τ) (x : ℕ) (call : Call τ) : State τ :=
  { s with calls := s.calls.set x call }

-- One step inside the thread `t`.
def State.inside (s : State τ) (t : Option τ) (a : LogThread.Action ℕ) : Option (State τ) :=
  (LogThread.step (s.threads t) a).map fun thread =>
    { s.applyRef (LogThread.refOp (s.threads t) a) with
      threads := Function.update s.threads t thread }

-- One step of `append_log`.
def appendLog (s : State τ) (x : ℕ) (isMatch : Bool) : Call τ → Option (State τ)
  | .lockThrds =>
      if s.lockThrds = none then
        some ({ s with lockThrds := some (.call x) }.setCall x (.visit s.thrds))
      else none
  | .visit [] => (s.inside none (.appendLog x x)).map fun s => s.setCall x .inOwn
  | .visit (t :: rest) =>
      if isMatch then
        (s.inside (some t) (.appendLog x x)).map fun s => s.setCall x (.inThread t rest)
      else some (s.setCall x (.visit rest))
  | .inThread t rest =>
      if (s.threads (some t)).appenders x = .idle then some (s.setCall x (.visit rest)) else none
  | .inOwn =>
      if (s.threads none).appenders x = .idle then
        some ({ s with lockThrds := none }.setCall x .release)
      else none
  | .release => some ((s.release x).setCall x .done)
  | .done => none

-- One step of the `stop` call in progress.
def stop (s : State τ) : Stop τ → Option (State τ)
  | .idle => none
  | .visit [] => some { s with thrds := [], stopper := .own }
  | .visit (t :: rest) =>
      (s.inside (some t) .stop).map fun s => { s with stopper := .inThread t rest }
  | .inThread t rest =>
      if (s.threads (some t)).ctl = .idle then some { s with stopper := .destroy t rest } else none
  | .destroy t rest =>
      (s.inside (some t) .stop).map fun s => { s with stopper := .inDestroy t rest }
  | .inDestroy t rest =>
      if (s.threads (some t)).ctl = .idle then some { s with stopper := .visit rest } else none
  | .own => (s.inside none .stop).map fun s => { s with stopper := .inOwn }
  | .inOwn =>
      if (s.threads none).ctl = .idle then some { s with lockThrds := none, stopper := .idle }
      else none

def step (s : State τ) : Action τ → Option (State τ)
  | .appendLog =>
      some { s with
        calls := s.calls ++ [.lockThrds]
        nRef := Function.update s.nRef s.calls.length 1 }
  | .call x isMatch => s.calls[x]?.bind (appendLog s x isMatch)
  | .thread t a =>
      match a with
      | .appendLog _ _ => none
      | a => s.inside t a
  | .stop =>
      if s.lockThrds = none then
        some { s with lockThrds := some .stop, stopper := .visit s.thrds }
      else none
  | .stopper => stop s s.stopper

def constructed (thrds : List τ) (pThread : Option τ → Bool) : State τ :=
  { threads := fun t => LogThread.constructed ℕ (pThread t)
    lockThrds := none
    thrds := thrds
    calls := []
    stopper := .idle
    nRef := fun _ => 0
    deletes := fun _ => 0 }

def system (τ : Type*) [DecidableEq τ] : System (State τ) (Action τ) where
  init s := ∃ thrds pThread, thrds.Nodup ∧ s = constructed thrds pThread
  step := step

end AsrServiceProxy.Log.LogImpl
