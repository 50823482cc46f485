import AsrServiceProxy.Utils.Ipc

namespace AsrServiceProxy.Ipc

open CMemory Transition

def bytesOf (cells : List Cell) : Bytes := cells.map Cell.byte

-- One call of one client and one server, without time-outs and with a `malloc`
-- that succeeds. Without an answer the server only receives.
def exchange (uuid : ℕ → Bytes) (kind : Kind) (msg : Bytes) (answer : Option Bytes) :
    System State Action where
  init s := ∃ header data, s = (initial header data).setCall 0 (.lock kind msg)
  step s a :=
    match a with
    | .client _ | .server | .next => step uuid asReceived s a
    | .ack _ => answer.bind fun response => step uuid asReceived s (.ack response)
    | _ => none

-- What `rec_msg` must give for a posted message, and that `pst_msg` returns 0
-- whatever the two have done so far.
def PostRoundTrip (uuid : ℕ → Bytes) (msg : Bytes) : Prop :=
  (∀ s hdr request, (exchange uuid .pst msg none).Reachable s → s.server = .received hdr request →
    hdr.type = .TYPE_POST ∧ request = msg) ∧
  ∀ s, (exchange uuid .pst msg none).Reachable s → ∃ actions t,
    (exchange uuid .pst msg none).run s actions = some t ∧ t.calls 0 = .done (some [])

-- What `rec_msg` must give for a message that was sent, that `snd_msg` returns 0
-- with the server's answer, and that the two never get stuck before it returns.
def SendRoundTrip (uuid : ℕ → Bytes) (request response : Bytes) : Prop :=
  (∀ s hdr received, (exchange uuid .snd request (some response)).Reachable s →
    s.server = .received hdr received → hdr.type = .TYPE_SEND ∧ received = request) ∧
  (∀ s ret, (exchange uuid .snd request (some response)).Reachable s → s.calls 0 = .done ret →
    ret.map bytesOf = some response) ∧
  ∀ s, (exchange uuid .snd request (some response)).Reachable s → ∃ actions t,
    (exchange uuid .snd request (some response)).run s actions = some t ∧
      ∃ ret, t.calls 0 = .done ret

theorem bytesOf_read_write (data : Data) (writer : Writer) (bytes : Bytes) (n : ℕ) :
    bytesOf ((data.write writer bytes).read n) =
      (bytes ++ (bytesOf (data.read n)).drop bytes.length).take n := by
  apply List.ext_getElem?
  intro i
  simp only [bytesOf, Data.read, List.map_map, List.getElem?_map, List.getElem?_take,
    List.getElem?_append, List.getElem?_drop]
  by_cases hi : i < n
  · by_cases hb : i < bytes.length
    · simp [hi, hb, Data.write]
    · have hadd : bytes.length + (i - bytes.length) = i := by omega
      simp [hi, hb, hadd, Data.write]
  · simp [hi]

theorem bytesOf_read_write_self (data : Data) (writer : Writer) (bytes : Bytes) :
    bytesOf ((data.write writer bytes).read bytes.length) = bytes := by
  rw [bytesOf_read_write, List.take_left]

section

variable (uuid : ℕ → Bytes) (request response : Bytes)

def sentHeader : MsgHeader := Kind.snd.header (uuid 0) request.length

-- What the client reads: `ack_msg` sends the size of the request back.
def clientReads : Bytes := (response ++ request.drop response.length).take request.length

-- The segment holds the request, or the answer written over it.
def Requested (s : State) : Prop :=
  s.header = sentHeader uuid request ∧ bytesOf (s.data.read request.length) = request

def Answered (s : State) : Prop :=
  s.header = sentHeader uuid request ∧
    bytesOf (s.data.read request.length) = clientReads request response

def ServerStage (s : State) : Server → Prop
  | .recWait =>
      (s.semClientMsg = 1 ∧ s.semServerMsg = 0 ∧ Requested uuid request s) ∨
      (s.semClientMsg = 0 ∧ s.semServerMsg = 1 ∧ Answered uuid request response s)
  | .recHeader => s.semClientMsg = 0 ∧ s.semServerMsg = 0 ∧ Requested uuid request s
  | .recData hdr => s.semClientMsg = 0 ∧ s.semServerMsg = 0 ∧ Requested uuid request s ∧
      hdr = sentHeader uuid request
  | .recPost hdr received => s.semClientMsg = 0 ∧ s.semServerMsg = 0 ∧ Requested uuid request s ∧
      hdr = sentHeader uuid request ∧ received = some request
  | .received hdr received => s.semClientMsg = 0 ∧ s.semServerMsg = 0 ∧ Requested uuid request s ∧
      hdr = sentHeader uuid request ∧ received = request
  | .ackHeader hdr answer | .ackData hdr answer => s.semClientMsg = 0 ∧ s.semServerMsg = 0 ∧
      Requested uuid request s ∧ hdr = sentHeader uuid request ∧ answer = response
  | .ackSignal => s.semClientMsg = 0 ∧ s.semServerMsg = 0 ∧ Answered uuid request response s

def ClientStage (s : State) : Client → Prop
  | .idle => False
  | .lock kind msg => Quiet s ∧ s.semLock = 1 ∧ kind = .snd ∧ msg = request
  | .drain kind msg | .writeHeader kind msg => Quiet s ∧ kind = .snd ∧ msg = request
  | .writeData kind msg =>
      Quiet s ∧ kind = .snd ∧ msg = request ∧ s.header = sentHeader uuid request
  | .signal kind => Quiet s ∧ kind = .snd ∧ Requested uuid request s
  | .waitAck kind => kind = .snd ∧ ServerStage uuid request response s s.server
  | .readHeader => Quiet s ∧ Answered uuid request response s
  | .copy size => Quiet s ∧ size = request.length ∧ Answered uuid request response s
  | .unlock ret | .done ret => Quiet s ∧ ret.map bytesOf = some (clientReads request response)

structure Stage (s : State) : Prop where
  others : ∀ k, k ≠ 0 → s.calls k = .idle
  stage : ClientStage uuid request response s (s.calls 0)

variable {uuid request response} {s t : State}

theorem Stage.moveCall (hv : Stage uuid request response s) {new : Client}
    (hcalls : t.calls = Function.update s.calls 0 new)
    (hstage : ClientStage uuid request response t new) : Stage uuid request response t := by
  constructor
  · intro k hk
    rw [hcalls, Function.update_of_ne hk]
    exact hv.others k hk
  · rw [hcalls, Function.update_self]
    exact hstage

theorem sameId_self (id : Bytes) : sameId id id = true := by simp [sameId]

theorem Stage.stepClient (hv : Stage uuid request response s) {pc : Client} (hpc : s.calls 0 = pc)
    (ht : client uuid s 0 pc = some t) : Stage uuid request response t := by
  have hstage : ClientStage uuid request response s pc := by
    rw [← hpc]
    exact hv.stage
  cases pc with
  | idle | done => cases ht
  | lock kind msg =>
      obtain ⟨hq, _, hmsg⟩ := hstage
      simp only [client] at ht
      split_ifs at ht
      cases ht
      exact hv.moveCall rfl ⟨hq, hmsg⟩
  | drain kind msg =>
      obtain ⟨⟨hserver, hc, hm⟩, hmsg⟩ := hstage
      simp only [client] at ht
      split_ifs at ht with hpos
      · omega
      · cases ht
        exact hv.moveCall rfl ⟨⟨hserver, hc, hm⟩, hmsg⟩
  | writeHeader kind msg =>
      obtain ⟨hq, rfl, rfl⟩ := hstage
      cases ht
      exact hv.moveCall rfl ⟨hq, rfl, rfl, rfl⟩
  | writeData kind msg =>
      obtain ⟨hq, rfl, rfl, hheader⟩ := hstage
      cases ht
      exact hv.moveCall rfl ⟨hq, rfl, hheader, bytesOf_read_write_self _ _ _⟩
  | signal kind =>
      obtain ⟨⟨hserver, hc, hm⟩, rfl, hreq⟩ := hstage
      cases ht
      refine hv.moveCall rfl ⟨rfl, ?_⟩
      have hone : s.semClientMsg + 1 = 1 := by omega
      simp only [State.setCall, hserver, ServerStage]
      exact .inl ⟨hone, hm, hreq⟩
  | waitAck kind =>
      obtain ⟨rfl, hserving⟩ := hstage
      simp only [client] at ht
      split_ifs at ht with hpos
      cases ht
      cases hserver : s.server with
      | recWait =>
          rw [hserver] at hserving
          rcases hserving with ⟨_, hz, _⟩ | ⟨hc, hm, hans⟩
          · omega
          · have hzero : s.semServerMsg - 1 = 0 := by omega
            exact hv.moveCall rfl ⟨⟨rfl, hc, hzero⟩, hans⟩
      | _ =>
          rw [hserver] at hserving
          have hz := hserving.2.1
          omega
  | readHeader =>
      obtain ⟨hq, hheader, hdata⟩ := hstage
      cases ht
      have hsame : sameId s.header.msgId (uuid 0) = true := by
        rw [hheader]
        exact sameId_self _
      have hsize : s.header.size = request.length := by
        rw [hheader]
        rfl
      rw [hsame]
      exact hv.moveCall rfl ⟨hq, hsize, hheader, hdata⟩
  | copy size =>
      obtain ⟨hq, rfl, hheader, hdata⟩ := hstage
      cases ht
      refine hv.moveCall rfl ⟨hq, ?_⟩
      rw [Option.map_some, hdata]
  | unlock ret =>
      cases ht
      exact hv.moveCall rfl hstage

-- The server moves only while the call waits.
theorem Stage.serves (hv : Stage uuid request response s) (hcalls : t.calls = s.calls)
    (hbusy : ¬Quiet s) (hserving : ServerStage uuid request response s s.server →
      ServerStage uuid request response t t.server) : Stage uuid request response t := by
  constructor
  · rw [hcalls]
    exact hv.others
  · have hstage := hv.stage
    rw [hcalls]
    cases hpc : s.calls 0 with
    | idle =>
        rw [hpc] at hstage
        exact hstage
    | waitAck kind =>
        rw [hpc] at hstage
        exact ⟨hstage.1, hserving hstage.2⟩
    | _ =>
        rw [hpc] at hstage
        exact absurd hstage.1 hbusy

theorem Stage.stepServer (hv : Stage uuid request response s) {pc : Server} (hpc : s.server = pc)
    (ht : server s pc = some t) : Stage uuid request response t := by
  have hbusy : pc ≠ .recWait → ¬Quiet s := fun hne hq => hne (hpc.symm.trans hq.1)
  cases pc with
  | recWait =>
      simp only [server] at ht
      split_ifs at ht with hpos
      cases ht
      refine hv.serves rfl ?_ ?_
      · intro h
        obtain ⟨_, hc, _⟩ := h
        omega
      · rw [hpc]
        intro h
        rcases h with ⟨hc, hm, hreq⟩ | ⟨hc, _⟩
        · have hzero : s.semClientMsg - 1 = 0 := by omega
          exact ⟨hzero, hm, hreq⟩
        · omega
  | recHeader =>
      cases ht
      refine hv.serves rfl (hbusy (by simp)) ?_
      rw [hpc]
      intro h
      obtain ⟨hc, hm, hreq⟩ := h
      exact ⟨hc, hm, hreq, hreq.1⟩
  | recData hdr =>
      cases ht
      refine hv.serves rfl (hbusy (by simp)) ?_
      rw [hpc]
      intro h
      obtain ⟨hc, hm, hreq, rfl⟩ := h
      refine ⟨hc, hm, hreq, rfl, ?_⟩
      exact congrArg some hreq.2
  | recPost hdr received =>
      cases ht
      refine hv.serves rfl (hbusy (by simp)) ?_
      rw [hpc]
      intro h
      obtain ⟨hc, hm, hreq, rfl, rfl⟩ := h
      exact ⟨hc, hm, hreq, rfl, rfl⟩
  | received => cases ht
  | ackHeader hdr answer =>
      cases ht
      refine hv.serves rfl (hbusy (by simp)) ?_
      rw [hpc]
      intro h
      obtain ⟨hc, hm, hreq, rfl, rfl⟩ := h
      exact ⟨hc, hm, ⟨rfl, hreq.2⟩, rfl, rfl⟩
  | ackData hdr answer =>
      cases ht
      refine hv.serves rfl (hbusy (by simp)) ?_
      rw [hpc]
      intro h
      obtain ⟨hc, hm, hreq, rfl, rfl⟩ := h
      refine ⟨hc, hm, hreq.1, ?_⟩
      rw [bytesOf_read_write, hreq.2]
      rfl
  | ackSignal =>
      cases ht
      refine hv.serves rfl (hbusy (by simp)) ?_
      rw [hpc]
      intro h
      obtain ⟨hc, hm, hans⟩ := h
      have hone : s.semServerMsg + 1 = 1 := by omega
      exact .inr ⟨hc, hone, hans⟩

theorem Stage.step (hv : Stage uuid request response s) {a : Action}
    (ht : (exchange uuid .snd request (some response)).step s a = some t) :
    Stage uuid request response t := by
  cases a with
  | call | timeout | oom | serverOom => cases ht
  | client k =>
      replace ht : client uuid s k (s.calls k) = some t := ht
      by_cases hk : k = 0
      · subst hk
        exact hv.stepClient rfl ht
      · rw [hv.others k hk] at ht
        cases ht
  | server => exact hv.stepServer rfl ht
  | ack other =>
      replace ht : Ipc.step uuid asReceived s (.ack response) = some t := ht
      simp only [Ipc.step] at ht
      split at ht
      next hdr received hpc =>
        cases ht
        refine hv.serves rfl (fun hq => ?_) ?_
        · have hserver := hq.1
          rw [hpc] at hserver
          cases hserver
        · rw [hpc]
          intro h
          obtain ⟨hc, hm, hreq, hhdr, _⟩ := h
          exact ⟨hc, hm, hreq, hhdr, rfl⟩
      next => cases ht
  | next =>
      replace ht : Ipc.step uuid asReceived s .next = some t := ht
      simp only [Ipc.step] at ht
      split at ht
      next hdr received hpc =>
        split_ifs at ht with hpost
        cases ht
        refine hv.serves rfl (fun hq => ?_) ?_
        · have hserver := hq.1
          rw [hpc] at hserver
          cases hserver
        · rw [hpc]
          intro h
          obtain ⟨_, _, _, rfl, _⟩ := h
          cases hpost
      next => cases ht

theorem reachable_stage (h : (exchange uuid .snd request (some response)).Reachable s) :
    Stage uuid request response s := by
  refine System.Reachable.invariant (S := exchange uuid .snd request (some response)) ?_ ?_ h
  · intro s hinit
    obtain ⟨header, data, rfl⟩ := hinit
    constructor
    · intro k hk
      simp [State.setCall, initial, hk]
    · exact ⟨⟨rfl, rfl, rfl⟩, rfl, rfl, rfl⟩
  · intro s a t hv ht
    exact hv.step ht

-- The server gets the request as it was sent.
theorem Stage.received (hv : Stage uuid request response s) {hdr : MsgHeader} {received : Bytes}
    (hpc : s.server = .received hdr received) : hdr.type = .TYPE_SEND ∧ received = request := by
  have hstage := hv.stage
  cases hcall : s.calls 0 with
  | idle =>
      rw [hcall] at hstage
      exact hstage.elim
  | waitAck kind =>
      rw [hcall] at hstage
      have hserving := hstage.2
      rw [hpc] at hserving
      obtain ⟨_, _, _, rfl, rfl⟩ := hserving
      exact ⟨rfl, rfl⟩
  | _ =>
      rw [hcall] at hstage
      have hserver := hstage.1.1
      rw [hpc] at hserver
      cases hserver

-- The steps that a call has before it, the server's while it waits aside.
def Client.left : Client → ℕ
  | .idle | .done _ => 0
  | .unlock _ => 1
  | .copy _ => 2
  | .readHeader => 3
  | .waitAck _ => 4
  | .signal _ => 5
  | .writeData _ _ => 6
  | .writeHeader _ _ => 7
  | .drain _ _ => 8
  | .lock _ _ => 9

def Server.left : Server → ℕ
  | .recWait => 0
  | .ackSignal => 1
  | .ackData _ _ => 2
  | .ackHeader _ _ => 3
  | .received _ _ => 4
  | .recPost _ _ => 5
  | .recData _ => 6
  | .recHeader => 7

-- The client's steps weigh more than all that the server does for one message.
def State.left (s : State) : ℕ := 9 * (s.calls 0).left + 8 * s.semClientMsg + s.server.left

theorem left_setCall_lt (u : State) {pc new : Client} (hpc : s.calls 0 = pc)
    (hlt : new.left < pc.left) (hc : u.semClientMsg ≤ s.semClientMsg + 1)
    (hserver : u.server = s.server) : (u.setCall 0 new).left < s.left := by
  have hnew : (u.setCall 0 new).left = 9 * new.left + 8 * u.semClientMsg + u.server.left := by
    simp [State.left, State.setCall]
  rw [hnew, State.left, hpc, hserver]
  omega

theorem Stage.exists_client_step (hv : Stage uuid request response s)
    (hdone : ∀ ret, s.calls 0 ≠ .done ret) (hwait : ∀ kind, s.calls 0 ≠ .waitAck kind) :
    ∃ t, client uuid s 0 (s.calls 0) = some t ∧ t.left < s.left := by
  have hstage := hv.stage
  cases hpc : s.calls 0 with
  | idle =>
      rw [hpc] at hstage
      exact hstage.elim
  | done ret => exact absurd hpc (hdone ret)
  | waitAck kind => exact absurd hpc (hwait kind)
  | lock kind msg =>
      rw [hpc] at hstage
      have hpos : 0 < s.semLock := by
        have hone := hstage.2.1
        omega
      exact ⟨_, if_pos hpos, left_setCall_lt _ hpc (by simp [Client.left]) (by simp) rfl⟩
  | drain kind msg =>
      rw [hpc] at hstage
      have hz : ¬0 < s.semServerMsg := by
        have hm := hstage.1.2.2
        omega
      exact ⟨_, if_neg hz, left_setCall_lt _ hpc (by simp [Client.left]) (by simp) rfl⟩
  | readHeader =>
      rw [hpc] at hstage
      have hsame : sameId s.header.msgId (uuid 0) = true := by
        rw [hstage.2.1]
        exact sameId_self _
      refine ⟨_, rfl, left_setCall_lt _ hpc ?_ (by simp) rfl⟩
      simp [Client.left, hsame]
  | writeHeader | writeData | signal | copy | unlock =>
      exact ⟨_, rfl, left_setCall_lt _ hpc (by simp [Client.left]) (by simp) rfl⟩

-- Only the wait for a message and the answer to it are not the server's own.
theorem exists_server_step {pc : Server} (hpc : s.server = pc) (hwait : pc ≠ .recWait)
    (hreceived : ∀ hdr request, pc ≠ .received hdr request) :
    ∃ t, server s pc = some t ∧ t.left < s.left := by
  cases pc with
  | recWait => exact absurd rfl hwait
  | received hdr request => exact absurd rfl (hreceived hdr request)
  | recPost hdr request =>
      refine ⟨_, rfl, ?_⟩
      cases request <;> simp [State.left, hpc, Server.left]
  | recHeader | recData | ackHeader | ackData | ackSignal =>
      refine ⟨_, rfl, ?_⟩
      simp [State.left, hpc, Server.left]

-- While the call waits, its message is with the server or the answer is there.
theorem Stage.exists_waiting_step (hv : Stage uuid request response s) {kind : Kind}
    (hpc : s.calls 0 = .waitAck kind) :
    ∃ a t, (exchange uuid .snd request (some response)).step s a = some t ∧ t.left < s.left := by
  have hstage := hv.stage
  rw [hpc] at hstage
  obtain ⟨rfl, hserving⟩ := hstage
  cases hserver : s.server with
  | recWait =>
      rw [hserver] at hserving
      rcases hserving with ⟨hc, _, _⟩ | ⟨_, hm, _⟩
      · refine ⟨.server,
          { s with semClientMsg := s.semClientMsg - 1, server := .recHeader }, ?_, ?_⟩
        · simp [exchange, Ipc.step, hserver, server, hc]
        · simp only [State.left, hserver, Server.left]
          omega
      · refine ⟨.client 0,
          { s with semServerMsg := s.semServerMsg - 1 }.setCall 0 .readHeader, ?_, ?_⟩
        · simp [exchange, Ipc.step, hpc, client, hm]
        · exact left_setCall_lt _ hpc (by simp [Client.left]) (by simp) rfl
  | received hdr received =>
      refine ⟨.ack response, { s with server := .ackHeader hdr response }, ?_, ?_⟩
      · simp [exchange, Ipc.step, hserver, asReceived]
      · simp [State.left, hserver, Server.left]
  | recHeader | recData | recPost | ackHeader | ackData | ackSignal =>
      obtain ⟨t, ht, hlt⟩ := exists_server_step hserver (by simp) (by simp)
      refine ⟨.server, t, ?_, hlt⟩
      rw [← ht, ← hserver]
      rfl

theorem Stage.exists_step (hv : Stage uuid request response s) :
    (∃ ret, s.calls 0 = .done ret) ∨
      ∃ a t, (exchange uuid .snd request (some response)).step s a = some t ∧ t.left < s.left := by
  by_cases hdone : ∃ ret, s.calls 0 = .done ret
  · exact .inl hdone
  by_cases hwait : ∃ kind, s.calls 0 = .waitAck kind
  · obtain ⟨kind, hpc⟩ := hwait
    exact .inr (hv.exists_waiting_step hpc)
  · rw [not_exists] at hdone hwait
    obtain ⟨t, ht, hlt⟩ := hv.exists_client_step hdone hwait
    exact .inr ⟨.client 0, t, ht, hlt⟩

-- Nothing blocks the exchange before the call returns.
theorem Stage.completes (hv : Stage uuid request response s) :
    ∃ actions t, (exchange uuid .snd request (some response)).run s actions = some t ∧
      ∃ ret, t.calls 0 = .done ret := by
  have hstep : ∀ s, Stage uuid request response s → (∃ ret, s.calls 0 = .done ret) ∨
      ∃ a t, (exchange uuid .snd request (some response)).step s a = some t ∧
        Stage uuid request response t ∧ t.left < s.left := by
    intro s hv
    rcases Stage.exists_step hv with hd | ⟨a, t, ht, hlt⟩
    · exact .inl hd
    · exact .inr ⟨a, t, ht, Stage.step hv ht, hlt⟩
  obtain ⟨actions, t, hr, -, hd⟩ := System.exists_run_of_rank State.left hstep hv
  exact ⟨actions, t, hr, hd⟩

variable (uuid request response)

theorem clientReads_eq_iff :
    clientReads request response = response ↔ response.length = request.length := by
  unfold clientReads
  constructor
  · intro h
    have hlen := congrArg List.length h
    simp only [List.length_take, List.length_append, List.length_drop] at hlen
    omega
  · intro h
    rw [← h, List.take_left]

-- The answer comes back whole exactly when it is as long as the request.
theorem sendRoundTrip_iff :
    SendRoundTrip uuid request response ↔ response.length = request.length := by
  rw [← clientReads_eq_iff]
  have hret : ∀ s ret, (exchange uuid .snd request (some response)).Reachable s →
      s.calls 0 = .done ret → ret.map bytesOf = some (clientReads request response) := by
    intro s ret hs hd
    have hstage := (reachable_stage hs).stage
    rw [hd] at hstage
    exact hstage.2
  constructor
  · intro h
    obtain ⟨_, hresponse, hcomplete⟩ := h
    have hinit : (exchange uuid .snd request (some response)).Reachable
        ((initial (sndHeader 0) fun _ => 0).setCall 0 (.lock .snd request)) := .init ⟨_, _, rfl⟩
    obtain ⟨actions, t, hrun, ret, hd⟩ := hcomplete _ hinit
    have hreach := hinit.run hrun
    have hboth := (hret t ret hreach hd).symm.trans (hresponse t ret hreach hd)
    exact Option.some.inj hboth
  · intro heq
    refine ⟨?_, ?_, ?_⟩
    · intro s hdr received hs hpc
      exact (reachable_stage hs).received hpc
    · intro s ret hs hd
      rw [hret s ret hs hd, heq]
    · intro s hs
      exact (reachable_stage hs).completes

end

theorem post_received (uuid : ℕ → Bytes) (msg : Bytes) :
    ∃ s hdr request, (exchange uuid .pst msg none).Reachable s ∧
      s.server = .received hdr request ∧ hdr.type = .TYPE_SEND := by
  have hinit : (exchange uuid .pst msg none).Reachable
      ((initial (sndHeader 0) fun _ => 0).setCall 0 (.lock .pst msg)) := .init ⟨_, _, rfl⟩
  obtain ⟨s, hs⟩ : ∃ s, (exchange uuid .pst msg none).run
    ((initial (sndHeader 0) fun _ => 0).setCall 0 (.lock .pst msg))
    [.client 0, .client 0, .client 0, .client 0, .client 0, .server, .server, .server, .server] =
      some s := ⟨_, rfl⟩
  have hreach := hinit.run hs
  cases hs
  exact ⟨_, _, _, hreach, rfl, rfl⟩

-- The server never sees the type or the bytes of a posted message.
theorem not_postRoundTrip (uuid : ℕ → Bytes) (msg : Bytes) : ¬PostRoundTrip uuid msg := by
  intro h
  obtain ⟨hreceived, _⟩ := h
  obtain ⟨s, hdr, request, hs, hpc, htype⟩ := post_received uuid msg
  have hpost := (hreceived s hdr request hs hpc).1
  rw [htype] at hpost
  cases hpost

theorem framing_round_trip (uuid : ℕ → Bytes) :
    (∀ msg, ¬PostRoundTrip uuid msg) ∧
    ∀ request response, SendRoundTrip uuid request response ↔ response.length = request.length :=
  ⟨not_postRoundTrip uuid, sendRoundTrip_iff uuid⟩

-- An answer shorter than its request comes back with the request's last byte.
theorem framing_fails : ¬PostRoundTrip (fun _ => ascii "id") (ascii "p") ∧
    ¬SendRoundTrip (fun _ => ascii "id") (ascii "ab") (ascii "c") := by
  refine ⟨not_postRoundTrip _ _, ?_⟩
  rw [sendRoundTrip_iff]
  decide

end AsrServiceProxy.Ipc
