import AsrServiceProxy.Utils.Ipc

-- The System V objects behind a channel, `init_shm_ipc`, and the processes that
-- use the channel.
namespace AsrServiceProxy.Ipc

open CMemory Transition

inductive Role where
  | ROLE_SERVER
  | ROLE_CLIENT
deriving DecidableEq, Repr

def SEM_LOCK : ℕ := 0
def SEM_CLIENT_MSG : ℕ := 1
def SEM_SERVER_MSG : ℕ := 2
def SEM_COUNT : ℕ := 3

def DEFAULT_SHM_TIMEOUT : ℤ := 1000

structure Segment where
  size : ℕ
  header : MsgHeader
  data : Data

-- The counts of a set, by the number of the semaphore.
abbrev SemSet := List ℕ

-- Segments and sets have ids of their own, and each is found by its key.
structure Kernel where
  shmIds : ℤ → Option ℤ
  segments : ℤ → Option Segment
  semIds : ℤ → Option ℤ
  sets : ℤ → Option SemSet

structure ShmIpc where
  name : String
  shmSize : ℕ
  shmPtr : ℤ
  semId : ℤ
  shmId : ℤ
  sndTimeoutInMs : ℤ
  recTimeoutInMs : ℤ
deriving DecidableEq, Repr

-- A new segment is filled with zeros.
def Segment.zero (size : ℕ) : Segment :=
  { size := size
    header := { msgId := List.replicate 37 0, type := .TYPE_SEND, size := 0 }
    data := fun _ => { byte := 0, writer := .init } }

namespace Kernel

-- `fresh` is the id that the kernel picks for a new segment.
def shmget (K : Kernel) (key : ℤ) (size : ℕ) (creat : Bool) (fresh : ℤ) : Option (Kernel × ℤ) :=
  match K.shmIds key with
  | some id =>
      (K.segments id).bind fun segment => if size ≤ segment.size then some (K, id) else none
  | none =>
      if creat ∧ 0 < size ∧ 0 ≤ fresh ∧ (K.segments fresh).isNone then
        some ({ K with
          shmIds := Function.update K.shmIds key (some fresh)
          segments := Function.update K.segments fresh (some (.zero size)) }, fresh)
      else none

-- The counts of a new set are 0.
def semget (K : Kernel) (key : ℤ) (nsems : ℕ) (creat : Bool) (fresh : ℤ) : Option (Kernel × ℤ) :=
  match K.semIds key with
  | some id => (K.sets id).bind fun set => if nsems ≤ set.length then some (K, id) else none
  | none =>
      if creat ∧ 0 ≤ fresh ∧ (K.sets fresh).isNone then
        some ({ K with
          semIds := Function.update K.semIds key (some fresh)
          sets := Function.update K.sets fresh (some (List.replicate nsems 0)) }, fresh)
      else none

-- `semctl(id, num, SETVAL, val)`
def setval (K : Kernel) (id : ℤ) (num val : ℕ) : Option Kernel :=
  if id < 0 then none
  else
    (K.sets id).bind fun set =>
      if num < set.length then
        some { K with sets := Function.update K.sets id (some (set.set num val)) }
      else none

-- A semaphore that does not exist is never taken, as one whose count is 0.
def count (K : Kernel) (id : ℤ) (num : ℕ) : ℕ := ((K.sets id).getD []).getD num 0

end Kernel

-- The next system call of `init_shm_ipc`.
inductive Attach where
  | shmget
  | shmat (shmId : ℤ)
  | semget (shmId shmPtr : ℤ)
  | semctl (shm : ShmIpc)
deriving DecidableEq, Repr

-- A process is outside, in `init_shm_ipc`, or has returned from it with 0. Then
-- it is in its call number `k`, or in the server's loop.
inductive Proc where
  | detached
  | attaching (pc : Attach)
  | attached (shm : ShmIpc) (k : ℕ) (call : Client) (server : Server)
deriving DecidableEq, Repr

inductive Party where
  | server
  | client (p : ℕ)
deriving DecidableEq, Repr

def Party.role : Party → Role
  | .server => .ROLE_SERVER
  | .client _ => .ROLE_CLIENT

structure Net where
  kernel : Kernel
  procs : Party → Proc

-- `fresh` is the id for a new object, and `ok` is false where `shmat` fails.
inductive NetAction where
  | init (p : Party)
  | attach (p : Party) (fresh : ℤ) (ok : Bool)
  | call (p : Party) (k : ℕ) (kind : Kind) (msg : Bytes)
  | act (p : Party) (a : Action)
deriving DecidableEq, Repr

def Client.finished : Client → Bool
  | .idle | .done _ => true
  | _ => false

def Net.setProc (s : Net) (p : Party) (proc : Proc) : Net :=
  { s with procs := Function.update s.procs p proc }

-- What the parties have in common: the name and the size of the channel, and
-- `shm_getkey`.
structure Channel where
  shmName : String
  size : ℕ
  getkey : String → ℤ

def Channel.shmKey (c : Channel) : ℤ := c.getkey (c.shmName ++ "_shm")

def Channel.semKey (c : Channel) : ℤ := c.getkey (c.shmName ++ "_sem")

-- Only the server asks for the segment to be created, and a client for size 0.
def Channel.sizeFor (c : Channel) : Role → ℕ
  | .ROLE_SERVER => c.size
  | .ROLE_CLIENT => 0

-- One system call of `init_shm_ipc`. A process for which it returns -1 is detached.
def attach (c : Channel) (role : Role) (K : Kernel) (fresh : ℤ) (ok : Bool) :
    Attach → Kernel × Proc
  | .shmget =>
      match K.shmget c.shmKey (c.sizeFor role) (role = .ROLE_SERVER) fresh with
      | some (K', shmId) => (K', .attaching (.shmat shmId))
      | none => (K, .detached)
  | .shmat shmId => if ok then (K, .attaching (.semget shmId shmId)) else (K, .detached)
  | .semget shmId shmPtr =>
      let shm (semId : ℤ) : ShmIpc :=
        { name := c.shmName
          shmSize := c.sizeFor role
          shmPtr := shmPtr
          semId := semId
          shmId := shmId
          sndTimeoutInMs := DEFAULT_SHM_TIMEOUT
          recTimeoutInMs := DEFAULT_SHM_TIMEOUT }
      -- The result of `semget` is not looked at before `semctl` has used it.
      match K.semget c.semKey SEM_COUNT (role = .ROLE_SERVER) fresh with
      | some (K', semId) => (K', .attaching (.semctl (shm semId)))
      | none => (K, .attaching (.semctl (shm (-1))))
  | .semctl shm =>
      match K.setval shm.semId SEM_LOCK 1 with
      | some K' => if shm.semId < 0 then (K', .detached) else (K', .attached shm 0 .idle .recWait)
      | none => (K, .detached)

-- What a process sees of the kernel when its operations go to the set `sem`.
def Kernel.view (K : Kernel) (segment : Segment) (sem : ℤ) (k : ℕ) (call : Client)
    (server : Server) : State :=
  { header := segment.header
    data := segment.data
    semLock := K.count sem SEM_LOCK
    semClientMsg := K.count sem SEM_CLIENT_MSG
    semServerMsg := K.count sem SEM_SERVER_MSG
    calls := Function.update (fun _ => .idle) k call
    server := server }

def storeCounts (t : State) (set : SemSet) : SemSet :=
  ((set.set SEM_LOCK t.semLock).set SEM_CLIENT_MSG t.semClientMsg).set SEM_SERVER_MSG t.semServerMsg

def Kernel.store (K : Kernel) (segment : Segment) (shmPtr sem : ℤ) (t : State) : Kernel :=
  { K with
    segments := Function.update K.segments shmPtr
      (some { segment with header := t.header, data := t.data })
    sets := Function.update K.sets sem ((K.sets sem).map (storeCounts t)) }

section

variable (c : Channel) (uuid : ℕ → Bytes) (prepare : Prepare)

-- One step of a call, with `sem` the id that it passes to `semp` and `semv`. It
-- is the step of the channel's own model, on the objects that the ids name.
def act (K : Kernel) (sem : ℤ) (shm : ShmIpc) (k : ℕ) (call : Client) (server : Server)
    (a : Action) : Option (Kernel × Proc) :=
  (K.segments shm.shmPtr).bind fun segment =>
    (step uuid prepare (K.view segment sem k call server) a).map fun t =>
      (K.store segment shm.shmPtr sem t, .attached shm k (t.calls k) t.server)

-- `used` is the field of `shm_ipc_t` that the calls pass to `semp` and `semv`.
def netStep (used : ShmIpc → ℤ) (s : Net) : NetAction → Option Net
  | .init p =>
      match s.procs p with
      | .detached => some (s.setProc p (.attaching .shmget))
      | .attached _ _ call server =>
          if call.finished ∧ server = .recWait then some (s.setProc p (.attaching .shmget)) else none
      | .attaching _ => none
  | .attach p fresh ok =>
      match s.procs p with
      | .attaching pc =>
          let r := attach c p.role s.kernel fresh ok pc
          some ({ s with kernel := r.1 }.setProc p r.2)
      | _ => none
  | .call p k kind msg =>
      match s.procs p with
      | .attached shm _ call server =>
          if call.finished then some (s.setProc p (.attached shm k (.lock kind msg) server))
          else none
      | _ => none
  | .act p a =>
      match s.procs p, a with
      | _, .call _ _ _ => none
      | .attached shm k call server, a =>
          (act uuid prepare s.kernel (used shm) shm k call server a).map fun r =>
            { s with kernel := r.1 }.setProc p r.2
      | _, _ => none

-- Nobody is attached yet.
def network (used : ShmIpc → ℤ) (start : Kernel → Prop) : System Net NetAction where
  init s := start s.kernel ∧ s.procs = fun _ => .detached
  step := netStep c uuid prepare used

end

-- The channel's objects do not exist yet.
def Absent (c : Channel) (K : Kernel) : Prop :=
  K.shmIds c.shmKey = none ∧ K.semIds c.semKey = none

-- The number of the semaphore that the next step works on.
def Client.semNum : Client → Option ℕ
  | .lock _ _ | .unlock _ => some SEM_LOCK
  | .drain _ _ | .waitAck _ => some SEM_SERVER_MSG
  | .signal _ => some SEM_CLIENT_MSG
  | _ => none

def Server.semNum : Server → Option ℕ
  | .recWait => some SEM_CLIENT_MSG
  | .recPost hdr _ => if hdr.type = .TYPE_POST then some SEM_SERVER_MSG else none
  | .ackSignal => some SEM_SERVER_MSG
  | _ => none

-- The semaphore that an action of a process works on, which for a time-out is
-- the one that was waited for.
def Proc.semNum : Proc → Action → Option ℕ
  | .attached _ _ call _, .client _ | .attached _ _ call _, .timeout _ => call.semNum
  | .attached _ _ _ server, .server => server.semNum
  | _, _ => none

-- One `semp` or `semv` of a process, with the kernel before and after it.
structure SemOp where
  shm : ShmIpc
  semId : ℤ
  semNum : ℕ
  before : Kernel
  after : Kernel

def semOp (used : ShmIpc → ℤ) (s t : Net) : NetAction → Option SemOp
  | .act p a =>
      match s.procs p with
      | .attached shm k call server =>
          ((Proc.attached shm k call server).semNum a).map fun num =>
            { shm := shm, semId := used shm, semNum := num, before := s.kernel, after := t.kernel }
      | _ => none
  | _ => none

-- The semaphore operations of a run.
def semOps (S : System Net NetAction) (used : ShmIpc → ℤ) : Net → List NetAction → List SemOp
  | _, [] => []
  | s, a :: rest =>
      match S.step s a with
      | some t => (semOp used s t a).toList ++ semOps S used t rest
      | none => []

-- The operation is on the set that `init_shm_ipc` has got, and changes no other.
def SemOp.OwnSet (op : SemOp) : Prop :=
  op.semId = op.shm.semId ∧ ∀ id, id ≠ op.shm.semId → op.after.sets id = op.before.sets id

end AsrServiceProxy.Ipc
