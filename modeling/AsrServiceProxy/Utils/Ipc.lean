import AsrServiceProxy.Lib.CMemory
import AsrServiceProxy.Lib.Transition

namespace AsrServiceProxy.Ipc

open CMemory Transition

inductive MsgType where
  | TYPE_SEND
  | TYPE_POST
deriving DecidableEq, Repr

-- `msgId` is the array `msg_id[37]`.
structure MsgHeader where
  msgId : Bytes
  type : MsgType
  size : ℕ
deriving DecidableEq, Repr

inductive Kind where
  | pst
  | snd
deriving DecidableEq, Repr

-- `{TYPE_POST, msg_size}` leaves out the braces of `msg_id`, so the two values
-- go to its first two elements and the other members are zero.
def pstHeader (msgSize : ℕ) : MsgHeader :=
  { msgId := 1 :: UInt8.ofNat msgSize :: List.replicate 35 0, type := .TYPE_SEND, size := 0 }

-- `{"", TYPE_SEND, msg_size}`
def sndHeader (msgSize : ℕ) : MsgHeader :=
  { msgId := List.replicate 37 0, type := .TYPE_SEND, size := msgSize }

-- The header that is sent, after `random_uuid` has written its `msg_id`.
def Kind.header (kind : Kind) (msgId : Bytes) (msgSize : ℕ) : MsgHeader :=
  match kind with
  | .pst => { pstHeader msgSize with msgId := msgId }
  | .snd => { sndHeader msgSize with msgId := msgId }

-- `strncmp(a, b, 37) == 0`
def sameId (a b : Bytes) : Bool := cstr (a.take 37) = cstr (b.take 37)

-- Who wrote a byte of the segment: the request of a call, or an `ack_msg` call,
-- by the `msg_id` that its header carries.
inductive Writer where
  | init
  | request (k : ℕ)
  | ack (msgId : Bytes)
deriving DecidableEq, Repr

structure Cell where
  byte : UInt8
  writer : Writer
deriving DecidableEq, Repr

-- The segment behind its header. It is taken to be as large as the messages.
abbrev Data := ℕ → Cell

def Data.write (data : Data) (writer : Writer) (bytes : Bytes) : Data := fun i =>
  match bytes[i]? with
  | some byte => { byte := byte, writer := writer }
  | none => data i

def Data.read (data : Data) (size : ℕ) : List Cell := (List.range size).map data

-- Where a `pst_msg` or `snd_msg` call is. The result is the response, or none
-- where the call returns -1.
inductive Client where
  | idle
  | lock (kind : Kind) (msg : Bytes)
  | drain (kind : Kind) (msg : Bytes)
  | writeHeader (kind : Kind) (msg : Bytes)
  | writeData (kind : Kind) (msg : Bytes)
  | signal (kind : Kind)
  | waitAck (kind : Kind)
  | readHeader
  | copy (size : ℕ)
  | unlock (ret : Option (List Cell))
  | done (ret : Option (List Cell))
deriving DecidableEq, Repr

-- Where the server is: in `rec_msg`, between the two calls, or in `ack_msg`.
inductive Server where
  | recWait
  | recHeader
  | recData (hdr : MsgHeader)
  | recPost (hdr : MsgHeader) (request : Option Bytes)
  | received (hdr : MsgHeader) (request : Bytes)
  | ackHeader (hdr : MsgHeader) (response : Bytes)
  | ackData (hdr : MsgHeader) (response : Bytes)
  | ackSignal
deriving DecidableEq, Repr

structure State where
  header : MsgHeader
  data : Data
  semLock : ℕ
  semClientMsg : ℕ
  semServerMsg : ℕ
  calls : ℕ → Client
  server : Server

-- `timeout` is a `semp` that gives up, `oom` a `malloc` that fails. A time-out
-- of the server's wait leaves it at that wait.
inductive Action where
  | call (k : ℕ) (kind : Kind) (msg : Bytes)
  | client (k : ℕ)
  | timeout (k : ℕ)
  | oom (k : ℕ)
  | server
  | serverOom
  | ack (response : Bytes)
  | next
deriving DecidableEq, Repr

def State.setCall (s : State) (k : ℕ) (client : Client) : State :=
  { s with calls := Function.update s.calls k client }

-- What the server puts into `msg_hdr` before it answers.
abbrev Prepare := MsgHeader → Bytes → MsgHeader

def storeSize : Prepare := fun hdr response => { hdr with size := response.length }

def asReceived : Prepare := fun hdr _ => hdr

section

variable (uuid : ℕ → Bytes)

-- One step of `pst_msg` or `snd_msg`.
def client (s : State) (k : ℕ) : Client → Option State
  | .idle | .done _ => none
  | .lock kind msg =>
      if 0 < s.semLock then
        some ({ s with semLock := s.semLock - 1 }.setCall k (.drain kind msg))
      else none
  | .drain kind msg =>
      if 0 < s.semServerMsg then some { s with semServerMsg := s.semServerMsg - 1 }
      else some (s.setCall k (.writeHeader kind msg))
  | .writeHeader kind msg =>
      some ({ s with header := kind.header (uuid k) msg.length }.setCall k (.writeData kind msg))
  | .writeData kind msg =>
      some ({ s with data := s.data.write (.request k) msg }.setCall k (.signal kind))
  | .signal kind => some ({ s with semClientMsg := s.semClientMsg + 1 }.setCall k (.waitAck kind))
  | .waitAck kind =>
      if 0 < s.semServerMsg then
        some ({ s with semServerMsg := s.semServerMsg - 1 }.setCall k
          (match kind with
          | .pst => .unlock (some [])
          | .snd => .readHeader))
      else none
  | .readHeader =>
      some (s.setCall k
        (if sameId s.header.msgId (uuid k) then .copy s.header.size else .waitAck .snd))
  | .copy size => some (s.setCall k (.unlock (some (s.data.read size))))
  | .unlock ret => some ({ s with semLock := s.semLock + 1 }.setCall k (.done ret))

-- One step of `rec_msg` or `ack_msg`.
def server (s : State) : Server → Option State
  | .recWait =>
      if 0 < s.semClientMsg then
        some { s with semClientMsg := s.semClientMsg - 1, server := .recHeader }
      else none
  | .recHeader => some { s with server := .recData s.header }
  | .recData hdr =>
      some { s with server := .recPost hdr (some ((s.data.read hdr.size).map Cell.byte)) }
  | .recPost hdr request =>
      some { s with
        semServerMsg := if hdr.type = .TYPE_POST then s.semServerMsg + 1 else s.semServerMsg
        server :=
          match request with
          | some request => .received hdr request
          | none => .recWait }
  | .received _ _ => none
  | .ackHeader hdr response => some { s with header := hdr, server := .ackData hdr response }
  | .ackData hdr response =>
      some { s with data := s.data.write (.ack hdr.msgId) response, server := .ackSignal }
  | .ackSignal => some { s with semServerMsg := s.semServerMsg + 1, server := .recWait }

def step (prepare : Prepare) (s : State) : Action → Option State
  | .call k kind msg =>
      match s.calls k with
      | .idle => some (s.setCall k (.lock kind msg))
      | _ => none
  | .client k => client uuid s k (s.calls k)
  | .timeout k =>
      match s.calls k with
      | .lock _ _ => some (s.setCall k (.done none))
      | .waitAck _ => some (s.setCall k (.unlock none))
      | _ => none
  | .oom k =>
      match s.calls k with
      | .copy _ => some (s.setCall k (.unlock none))
      | _ => none
  | .server => server s s.server
  | .serverOom =>
      match s.server with
      | .recData hdr => some { s with server := .recPost hdr none }
      | _ => none
  | .ack response =>
      match s.server with
      | .received hdr _ => some { s with server := .ackHeader (prepare hdr response) response }
      | _ => none
  | .next =>
      match s.server with
      | .received hdr _ =>
          if hdr.type = .TYPE_POST then some { s with server := .recWait } else none
      | _ => none

end

-- The semaphores at 1, 0 and 0, and a segment with any content.
def initial (header : MsgHeader) (data : ℕ → UInt8) : State :=
  { header := header
    data := fun i => { byte := data i, writer := .init }
    semLock := 1
    semClientMsg := 0
    semServerMsg := 0
    calls := fun _ => .idle
    server := .recWait }

def system (uuid : ℕ → Bytes) (prepare : Prepare) : System State Action where
  init s := ∃ header data, s = initial header data
  step := step uuid prepare

-- Every earlier message was served and its answer taken.
def Quiet (s : State) : Prop :=
  s.server = .recWait ∧ s.semClientMsg = 0 ∧ s.semServerMsg = 0

instance (s : State) : Decidable (Quiet s) := inferInstanceAs (Decidable (_ ∧ _))

end AsrServiceProxy.Ipc
