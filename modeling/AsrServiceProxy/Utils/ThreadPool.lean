import AsrServiceProxy.Lib.Counting
import AsrServiceProxy.Lib.Transition

namespace AsrServiceProxy.ThreadPool

open Transition

-- Where a worker is in its loop. A worker that was woken takes the mutex again
-- before it tests.
inductive Worker where
  | lock
  | test
  | waiting
  | running (task : ℕ)
  | exited
deriving DecidableEq, Repr

-- Where a thread is inside `enqueue`.
inductive Caller where
  | idle
  | lock
  | locked
  | notify
  | threw (what : String)
deriving DecidableEq, Repr

inductive Destructor where
  | idle
  | lock
  | locked
  | notify
  | join (i : ℕ)
  | done
deriving DecidableEq, Repr

inductive Holder where
  | worker (i : ℕ)
  | caller (c : ℕ)
  | destructor
deriving DecidableEq, Repr

-- A task is named by its place among the accepted ones. `accepted`, `taken`
-- and `ran` record what happened.
structure State where
  queueSize : ℤ
  tasks : List ℕ
  queueMutex : Option Holder
  stop : Bool
  workers : List Worker
  callers : ℕ → Caller
  destructor : Destructor
  accepted : List ℕ
  taken : List ℕ
  ran : List ℕ

inductive Action where
  | workerLock (i : ℕ)
  | workerTest (i : ℕ)
  | workerWake (i : ℕ)
  | workerRan (i : ℕ)
  | enqueue (c : ℕ)
  | enqueueLock (c : ℕ)
  | enqueueBody (c : ℕ)
  | notifyOne (c : ℕ) (woken : Option ℕ)
  | destroy
  | destroyLock
  | destroyBody
  | notifyAll
  | join
deriving DecidableEq, Repr

def State.setWorker (s : State) (i : ℕ) (worker : Worker) : State :=
  { s with workers := s.workers.set i worker }

def State.setCaller (s : State) (c : ℕ) (caller : Caller) : State :=
  { s with callers := Function.update s.callers c caller }

-- From the test of the wait predicate to the end of the locked block.
def workerTest (s : State) (i : ℕ) : Option State :=
  let s := { s with queueMutex := none }
  if s.stop ∨ s.tasks ≠ [] then
    if s.stop ∧ s.tasks = [] then some (s.setWorker i .exited)
    else
      match s.tasks with
      | [] => none
      | task :: rest =>
          some ({ s with tasks := rest, taken := s.taken ++ [task] }.setWorker i (.running task))
  else some (s.setWorker i .waiting)

-- The locked block of `enqueue`. The `int` bound is compared as a `size_t`.
def enqueueBody (s : State) (c : ℕ) : State :=
  let s := { s with queueMutex := none }
  if s.stop then s.setCaller c (.threw "enqueue on stopped ThreadPool")
  else if s.tasks.length < (s.queueSize % 2 ^ 64).toNat then
    { s with
      tasks := s.tasks ++ [s.accepted.length]
      accepted := s.accepted ++ [s.accepted.length] }.setCaller c .notify
  else s.setCaller c (.threw "task queue if full")

def stepWorker (s : State) : Action → Option State
  | .workerLock i =>
      if s.workers[i]? = some .lock ∧ s.queueMutex = none then
        some ({ s with queueMutex := some (.worker i) }.setWorker i .test)
      else none
  | .workerTest i => if s.workers[i]? = some .test then workerTest s i else none
  | .workerWake i => if s.workers[i]? = some .waiting then some (s.setWorker i .lock) else none
  | .workerRan i =>
      match s.workers[i]? with
      | some (.running task) => some ({ s with ran := s.ran ++ [task] }.setWorker i .lock)
      | _ => none
  | _ => none

def stepCaller (s : State) : Action → Option State
  | .enqueue c =>
      match s.callers c with
      | .idle | .threw _ => some (s.setCaller c .lock)
      | _ => none
  | .enqueueLock c =>
      if s.callers c = .lock ∧ s.queueMutex = none then
        some ({ s with queueMutex := some (.caller c) }.setCaller c .locked)
      else none
  | .enqueueBody c => if s.callers c = .locked then some (enqueueBody s c) else none
  | .notifyOne c woken =>
      if s.callers c = .notify then
        match woken with
        | none => if .waiting ∈ s.workers then none else some (s.setCaller c .idle)
        | some i =>
            if s.workers[i]? = some .waiting then some ((s.setWorker i .lock).setCaller c .idle)
            else none
      else none
  | _ => none

def stepDestructor (s : State) : Action → Option State
  | .destroy => if s.destructor = .idle then some { s with destructor := .lock } else none
  | .destroyLock =>
      if s.destructor = .lock ∧ s.queueMutex = none then
        some { s with destructor := .locked, queueMutex := some .destructor }
      else none
  | .destroyBody =>
      if s.destructor = .locked then
        some { s with destructor := .notify, queueMutex := none, stop := true }
      else none
  | .notifyAll =>
      if s.destructor = .notify then
        some { s with
          destructor := .join 0
          workers := s.workers.map fun w => if w = .waiting then .lock else w }
      else none
  | .join =>
      match s.destructor with
      | .join i =>
          if i = s.workers.length then some { s with destructor := .done }
          else if s.workers[i]? = some .exited then some { s with destructor := .join (i + 1) }
          else none
      | _ => none
  | _ => none

def step (s : State) (a : Action) : Option State :=
  ((stepWorker s a).or (stepCaller s a)).or (stepDestructor s a)

def initial (threads : ℕ) (queueSize : ℤ) : State :=
  { queueSize := queueSize
    tasks := []
    queueMutex := none
    stop := false
    workers := List.replicate threads .lock
    callers := fun _ => .idle
    destructor := .idle
    accepted := []
    taken := []
    ran := [] }

def system (threads : ℕ) (queueSize : ℤ) : System State Action where
  init s := s = initial threads queueSize
  step := step

end AsrServiceProxy.ThreadPool
