import AsrServiceProxy.App.BdAsrService
import AsrServiceProxy.Lib.Transition

namespace AsrServiceProxy.App.Token

open CMemory Transition

-- `char url[200]`
def tokenUrl (conf : Config) : Bytes :=
  snprintf 200 (ascii "http://openapi.baidu.com/oauth/2.0/token" ++
    ascii "?grant_type=client_credentials&client_id=" ++ cstr conf.appKey ++
    ascii "&client_secret=" ++ cstr conf.appSecretKey)

abbrev Transfer := CURLcode × List Chunk

-- The body that libcurl delivered, as a C string.
def body (transfer : Transfer) : Bytes := ((received transfer.2).map fun b => cstr b.mem).getD []

-- One pass of the loop of `get_token` up to its test of `res`: the code, and
-- the local `request_token` and `scope`.
def request (reader : Json.Reader) (transfer : Transfer) :
    Except Exn (ReturnCode × Bytes × Bytes) :=
  if transfer.1 ≠ .CURLE_OK then
    .ok (.ERROR_TOKEN_CURL, [], [])
  else
    handleResponse reader ((received transfer.2).map Block.mem) [] []

-- Where the thread of `get_token` is. An exception that leaves the thread ends
-- the process.
inductive Loop where
  | perform
  | retrySleep
  | assign (body token : Bytes)
  | assigning (body token : Bytes)
  | sleep
  | clear
  | clearing
  | terminated
deriving DecidableEq, Repr

-- Where a thread inside `call` is, up to the end of its block with the lock.
inductive Caller where
  | idle
  | lock
  | locked
deriving DecidableEq, Repr

inductive Holder where
  | loop
  | caller (c : ℕ)
deriving DecidableEq, Repr

inductive Event where
  | committed (body token : Bytes)
  | failed (transfer : Transfer)
  | cleared
  | urlBuilt (caller : ℕ) (token url : Bytes)
  | tokenEmpty (caller : ℕ)

structure State where
  asrToken : Bytes
  tokenMutex : Option Holder
  loop : Loop
  callers : ℕ → Caller
  -- what happened so far, the latest event first
  history : List Event

inductive Action where
  | perform (server : Bytes → Transfer)
  | retry
  | lockAssign
  | assign
  | expire
  | lockClear
  | clear
  | call (c : ℕ)
  | lockCall (c : ℕ)
  | buildUrl (c : ℕ)

section

variable (reader : Json.Reader) (conf : Config)

def stepLoop (s : State) : Action → Option State
  | .perform server =>
      let transfer := server (tokenUrl conf)
      if s.loop = .perform then
        match request reader transfer with
        | .error _ => some { s with loop := .terminated }
        | .ok (.RETURN_OK, token, _) => some { s with loop := .assign (body transfer) token }
        | .ok _ => some { s with loop := .retrySleep, history := .failed transfer :: s.history }
      else none
  | .retry => if s.loop = .retrySleep then some { s with loop := .perform } else none
  | .lockAssign =>
      match s.loop, s.tokenMutex with
      | .assign body token, none =>
          some { s with loop := .assigning body token, tokenMutex := some .loop }
      | _, _ => none
  | .assign =>
      match s.loop with
      | .assigning body token =>
          some { s with
            asrToken := token
            loop := .sleep
            tokenMutex := none
            history := .committed body token :: s.history }
      | _ => none
  | .expire => if s.loop = .sleep then some { s with loop := .clear } else none
  | .lockClear =>
      if s.loop = .clear ∧ s.tokenMutex = none then
        some { s with loop := .clearing, tokenMutex := some .loop }
      else none
  | .clear =>
      if s.loop = .clearing then
        some { s with
          asrToken := []
          loop := .perform
          tokenMutex := none
          history := .cleared :: s.history }
      else none
  | _ => none

def stepCall (s : State) : Action → Option State
  | .call c =>
      if s.callers c = .idle then
        some { s with callers := Function.update s.callers c .lock }
      else none
  | .lockCall c =>
      if s.callers c = .lock ∧ s.tokenMutex = none then
        some { s with
          callers := Function.update s.callers c .locked
          tokenMutex := some (.caller c) }
      else none
  | .buildUrl c =>
      if s.callers c = .locked then
        some { s with
          callers := Function.update s.callers c .idle
          tokenMutex := none
          history :=
            match App.buildUrl conf s.asrToken with
            | none => .tokenEmpty c :: s.history
            | some url => .urlBuilt c s.asrToken url :: s.history }
      else none
  | _ => none

def step (s : State) (a : Action) : Option State :=
  if s.loop = .terminated then none
  else (stepLoop reader conf s a).or (stepCall conf s a)

def initial : State :=
  { asrToken := []
    tokenMutex := none
    loop := .perform
    callers := fun _ => .idle
    history := [] }

def system : System State Action where
  init s := s = initial
  step := step reader conf

end

-- The response names a token and a scope, both non-empty.
def Grants (reader : Json.Reader) (body token : Bytes) : Prop :=
  ∃ root scope, reader body = some root ∧
    (root.member (ascii "access_token") >>= Json.Value.asString) = .ok token ∧
    (root.member (ascii "scope") >>= Json.Value.asString) = .ok scope ∧
    token ≠ [] ∧ scope ≠ []

def Event.KeepsToken : Event → Prop
  | .committed _ _ | .cleared => False
  | _ => True

-- The commit that is in force after a history.
def current : List Event → Option (Bytes × Bytes)
  | [] => none
  | .committed body token :: _ => some (body, token)
  | .cleared :: _ => none
  | _ :: rest => current rest

end AsrServiceProxy.App.Token
