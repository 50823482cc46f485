import AsrServiceProxy.Lib.Transition

-- The receivers of a `CLogImpl`: its own list and those of the dedicated threads.
namespace AsrServiceProxy.Log.Receivers

open Transition

inductive LogLevel where
  | NOT_SET
  | DEBUG
  | INFO
  | NOTICE
  | WARNING
  | ERROR
  | FATAL
  | NOTIFY
deriving DecidableEq, Repr

structure LogItem where
  eLevel : LogLevel
  strModule : String
  strTitle : String
  strLog : String
  nThrdId : ℕ
deriving DecidableEq, Repr

-- `κ` is `log_receiver_t`, a callback with its `_usr_data`. The code compares two
-- of them with `memcmp`.
structure LogReceiver (κ : Type*) where
  recv : κ
  bDedicatedThread : Bool
  strTitle : String
deriving DecidableEq, Repr

variable {κ : Type*}

-- The title is a null pointer where it is none.
def newReceiver (recv : κ) (title : Option String) (bDedicatedThread : Bool) : LogReceiver κ :=
  { recv := recv
    bDedicatedThread := bDedicatedThread
    strTitle :=
      match title with
      | some title => if title = "" then "*" else title
      | none => "*" }

section

-- `regexec pattern title` is true where `regexec` returns 0 for the compiled pattern.
variable (regexec : String → String → Bool)

def LogReceiver.isMatch (r : LogReceiver κ) (li : LogItem) : Bool := regexec r.strTitle li.strTitle

-- `CLogThread::match`
def isMatch (recvs : List (LogReceiver κ)) (li : LogItem) : Bool := recvs.any (·.isMatch regexec li)

end

-- The receivers that `do_dispatch` calls: the list from its start, up to the
-- first whose callback does not return 0.
def doDispatch (receiveLog : κ → LogItem → ℤ) (item : LogItem) :
    List (LogReceiver κ) → List (LogReceiver κ)
  | [] => []
  | r :: rest => r :: if receiveLog r.recv item ≠ 0 then [] else doDispatch receiveLog item rest

variable [DecidableEq κ]

def checkRecv (recvs : List (LogReceiver κ)) (recv : κ) : Bool := recvs.any (·.recv = recv)

-- `CLogThread::register_receiver`, with what it returns.
def threadRegister (recvs : List (LogReceiver κ)) (lr : LogReceiver κ) :
    ℤ × List (LogReceiver κ) :=
  if checkRecv recvs lr.recv then (1, recvs) else (0, lr :: recvs)

-- `CLogThread::unregister_receiver` takes out the first that is equal.
def threadUnregister (recv : κ) : List (LogReceiver κ) → ℤ × List (LogReceiver κ)
  | [] => (0, [])
  | r :: rest =>
      if r.recv = recv then (1, rest)
      else ((threadUnregister recv rest).1, r :: (threadUnregister recv rest).2)

structure Registry (κ : Type*) where
  main : List (LogReceiver κ)
  thrds : List (List (LogReceiver κ))
deriving DecidableEq, Repr

def registerReceiver (reg : Registry κ) (lr : LogReceiver κ) : ℤ × Registry κ :=
  if reg.thrds.any (checkRecv · lr.recv) then (1, reg)
  else if lr.bDedicatedThread then
    (0, { reg with thrds := reg.thrds ++ [(threadRegister [] lr).2] })
  else ((threadRegister reg.main lr).1, { reg with main := (threadRegister reg.main lr).2 })

-- `it++`, which is undefined at the end of the vector.
def increment {α : Type*} (thrds : List α) (it : ℕ) : Option ℕ :=
  if it < thrds.length then some (it + 1) else none

-- The loop of `unregister_receiver` from the iterator on. There is no result
-- where it dereferences or increments the end.
def unregisterLoop (recv : κ) :
    ℕ → List (List (LogReceiver κ)) → ℕ → Option (List (List (LogReceiver κ)))
  | 0, _, _ => none
  | fuel + 1, thrds, it =>
      if it = thrds.length then some thrds
      else
        thrds[it]?.bind fun th =>
          -- The `continue` after `erase` only ends the `do ... while (0)`.
          let thrds' :=
            if (threadUnregister recv th).1 = 1 then thrds.eraseIdx it
            else thrds.set it (threadUnregister recv th).2
          if it = thrds'.length then some thrds'
          else (increment thrds' it).bind fun it => unregisterLoop recv fuel thrds' it

def unregisterReceiver (reg : Registry κ) (recv : κ) : Option (ℤ × Registry κ) :=
  (unregisterLoop recv (reg.thrds.length + 1) reg.thrds 0).map fun thrds =>
    ((threadUnregister recv reg.main).1,
      { main := (threadUnregister recv reg.main).2, thrds := thrds })

inductive Action (κ : Type*) where
  | register (recv : κ) (title : Option String) (bDedicatedThread : Bool)
  | unregister (recv : κ)
deriving DecidableEq, Repr

def step (reg : Registry κ) : Action κ → Option (Registry κ)
  | .register recv title bDedicatedThread =>
      some (registerReceiver reg (newReceiver recv title bDedicatedThread)).2
  | .unregister recv => (unregisterReceiver reg recv).map Prod.snd

def system (κ : Type*) [DecidableEq κ] : System (Registry κ) (Action κ) where
  init reg := reg = { main := [], thrds := [] }
  step := step

-- The receivers in all the lists.
def Registry.all (reg : Registry κ) : List κ := (reg.main ++ reg.thrds.flatten).map (·.recv)

end AsrServiceProxy.Log.Receivers
