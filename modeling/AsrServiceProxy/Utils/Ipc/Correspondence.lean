import AsrServiceProxy.Lib.Mutex
import AsrServiceProxy.Utils.Ipc

namespace AsrServiceProxy.Ipc

open CMemory Mutex Transition

-- Between the `semp` and the `semv` on `SEM_LOCK`.
def Client.Inside : Client → Prop
  | .idle | .lock _ _ | .done _ => False
  | _ => True

def Client.writesHeader : Client → Bool
  | .writeHeader _ _ => true
  | _ => false

-- The condition on one step: a call writes its header only in a quiet state.
def Settled (s : State) : Action → Prop
  | .client k => (s.calls k).writesHeader → Quiet s
  | _ => True

instance (s : State) (a : Action) : Decidable (Settled s a) :=
  match a with
  | .client _ => inferInstanceAs (Decidable (_ → _))
  | .call _ _ _ | .timeout _ | .oom _ | .server | .serverOom | .ack _ | .next => isTrue trivial

-- `SEM_LOCK` is 0 while a call is inside, and then there is only that one.
def Exclusive (s : State) : Prop :=
  ∃ owner : Option ℕ, Owned owner (fun k => (s.calls k).Inside) ∧
    s.semLock = if owner = none then 1 else 0

variable {uuid : ℕ → Bytes} {s t : State} {k : ℕ}

theorem Exclusive.move (h : Exclusive s) {new : Client}
    (hcalls : t.calls = Function.update s.calls k new)
    (hm : ((new.Inside ↔ (s.calls k).Inside) ∧ t.semLock = s.semLock) ∨
      (0 < s.semLock ∧ new.Inside ∧ t.semLock = s.semLock - 1) ∨
      ((s.calls k).Inside ∧ ¬new.Inside ∧ t.semLock = s.semLock + 1)) : Exclusive t := by
  obtain ⟨owner, hown, hlock⟩ := h
  have hme : (t.calls k).Inside ↔ new.Inside := by rw [hcalls, Function.update_self]
  have hothers : ∀ j, j ≠ k → ((t.calls j).Inside ↔ (s.calls j).Inside) := by
    intro j hj
    rw [hcalls, Function.update_of_ne hj]
  rcases hm with ⟨hsame, hl⟩ | ⟨hpos, hin, hl⟩ | ⟨hin, hout, hl⟩
  · exact ⟨owner, hown.move (.keep hsame) hme hothers, hl.trans hlock⟩
  · have hfree : owner = none := by
      by_contra hne
      rw [if_neg hne] at hlock
      omega
    refine ⟨some k, hown.move (.enter hfree hin) hme hothers, ?_⟩
    rw [if_pos hfree] at hlock
    simp only [reduceCtorEq, if_false]
    omega
  · have hsome : owner = some k := (hown k).mp hin
    refine ⟨none, hown.move (.leave hin hout) hme hothers, ?_⟩
    rw [hsome] at hlock
    simp only [reduceCtorEq, if_false, if_true] at hlock ⊢
    omega

theorem Exclusive.not_inside (h : Exclusive s) {j : ℕ} (hk : (s.calls k).Inside) (hj : j ≠ k) :
    ¬(s.calls j).Inside := by
  obtain ⟨owner, hown, -⟩ := h
  intro hi
  exact hj (hown.exclusive hi hk)

-- The header is the one that the call has sent.
def Mine (uuid : ℕ → Bytes) (k : ℕ) (hdr : MsgHeader) : Prop :=
  hdr.msgId = uuid k ∧ hdr.type = .TYPE_SEND

-- The segment holds an answer to the call.
def Replied (uuid : ℕ → Bytes) (s : State) (k : ℕ) : Prop :=
  s.header.msgId = uuid k ∧ ∀ cell ∈ s.data.read s.header.size, cell.writer = .ack (uuid k)

-- How far the message of a waiting call has come.
def Serving (uuid : ℕ → Bytes) (s : State) (k : ℕ) : Server → Prop
  | .recWait =>
      (s.semClientMsg = 1 ∧ s.semServerMsg = 0 ∧ Mine uuid k s.header) ∨
      (s.semClientMsg = 0 ∧ s.semServerMsg = 1 ∧ Replied uuid s k) ∨
      (s.semClientMsg = 0 ∧ s.semServerMsg = 0)
  | .recHeader => s.semClientMsg = 0 ∧ s.semServerMsg = 0 ∧ Mine uuid k s.header
  | .recData hdr | .recPost hdr _ | .received hdr _ =>
      s.semClientMsg = 0 ∧ s.semServerMsg = 0 ∧ Mine uuid k hdr
  | .ackHeader hdr response =>
      s.semClientMsg = 0 ∧ s.semServerMsg = 0 ∧ Mine uuid k hdr ∧ hdr.size = response.length
  | .ackData hdr response =>
      s.semClientMsg = 0 ∧ s.semServerMsg = 0 ∧ Mine uuid k hdr ∧ hdr.size = response.length ∧
        s.header = hdr
  | .ackSignal => s.semClientMsg = 0 ∧ s.semServerMsg = 0 ∧ Replied uuid s k

def Session (uuid : ℕ → Bytes) (s : State) (k : ℕ) : Client → Prop
  | .writeData _ _ | .signal _ => Quiet s ∧ Mine uuid k s.header
  | .waitAck _ => Serving uuid s k s.server
  | .readHeader => Quiet s ∧ Replied uuid s k
  | .copy size => Quiet s ∧ ∀ cell ∈ s.data.read size, cell.writer = .ack (uuid k)
  | .unlock (some response) | .done (some response) =>
      ∀ cell ∈ response, cell.writer = .ack (uuid k)
  | _ => True

structure Valid (uuid : ℕ → Bytes) (s : State) : Prop where
  exclusive : Exclusive s
  session : ∀ k, Session uuid s k (s.calls k)

theorem Session.of_not_inside {pc : Client} (hpc : ¬pc.Inside) (h : Session uuid s k pc) :
    Session uuid t k pc := by
  cases pc with
  | idle | lock => trivial
  | done ret => cases ret <;> exact h
  | _ => exact absurd trivial hpc

-- A step of the call `k` alone: the others are outside, or see nothing of it.
theorem Valid.moveCall (hv : Valid uuid s) {new : Client}
    (hcalls : t.calls = Function.update s.calls k new) (hex : Exclusive t)
    (hframe : (s.calls k).Inside ∨ (t.header = s.header ∧ t.data = s.data ∧ t.server = s.server ∧
      t.semClientMsg = s.semClientMsg ∧ t.semServerMsg = s.semServerMsg))
    (hsession : Session uuid t k new) : Valid uuid t := by
  refine ⟨hex, ?_⟩
  intro j
  by_cases hj : j = k
  · subst hj
    rw [hcalls, Function.update_self]
    exact hsession
  · have hs := hv.session j
    rw [hcalls, Function.update_of_ne hj]
    rcases hframe with hin | ⟨hh, hd, hsv, hc, hm⟩
    · exact hs.of_not_inside (hv.exclusive.not_inside hin hj)
    · unfold Session Serving Replied Quiet at hs ⊢
      rw [hh, hd, hsv, hc, hm]
      exact hs

-- A call moves inside its critical section.
theorem Valid.moveInside (hv : Valid uuid s) {new : Client}
    (hcalls : t.calls = Function.update s.calls k new) (hlock : t.semLock = s.semLock)
    (hin : (s.calls k).Inside) (hnew : new.Inside) (hsession : Session uuid t k new) :
    Valid uuid t :=
  hv.moveCall hcalls (hv.exclusive.move hcalls (.inl ⟨iff_of_true hnew hin, hlock⟩)) (.inl hin)
    hsession

theorem Data.writer_of_mem_read {data : Data} {writer : Writer} {bytes : Bytes} {cell : Cell}
    (h : cell ∈ (data.write writer bytes).read bytes.length) : cell.writer = writer := by
  unfold Data.read at h
  obtain ⟨i, hi, rfl⟩ := List.mem_map.mp h
  have hlt := List.mem_range.mp hi
  simp [Data.write, List.getElem?_eq_getElem hlt]

theorem Kind.header_mine (kind : Kind) (k size : ℕ) : Mine uuid k (kind.header (uuid k) size) := by
  cases kind <;> exact ⟨rfl, rfl⟩

-- A waiting call finds a token only when the server has answered it.
theorem Serving.replied (h : Serving uuid s k s.server) (hpos : 0 < s.semServerMsg) :
    s.server = .recWait ∧ s.semClientMsg = 0 ∧ s.semServerMsg = 1 ∧ Replied uuid s k := by
  cases hserver : s.server with
  | recWait =>
      rw [hserver] at h
      rcases h with ⟨_, hz, _⟩ | ⟨hc, hm, hr⟩ | ⟨_, hz⟩
      · omega
      · exact ⟨rfl, hc, hm, hr⟩
      · omega
  | _ =>
      rw [hserver] at h
      have hz := h.2.1
      omega

theorem Valid.stepClient (hv : Valid uuid s) {pc : Client} (hpc : s.calls k = pc)
    (hcond : pc.writesHeader → Quiet s) (ht : client uuid s k pc = some t) : Valid uuid t := by
  have hsession : Session uuid s k pc := by
    rw [← hpc]
    exact hv.session k
  have hin : pc.Inside → (s.calls k).Inside := by
    rw [hpc]
    exact id
  cases pc with
  | idle | done => cases ht
  | lock kind msg =>
      simp only [client] at ht
      split_ifs at ht with hpos
      cases ht
      have hmove : Exclusive ({ s with semLock := s.semLock - 1 }.setCall k (.drain kind msg)) := by
        refine hv.exclusive.move (k := k) rfl (.inr (.inl ⟨hpos, ?_, rfl⟩))
        trivial
      exact hv.moveCall rfl hmove (.inr ⟨rfl, rfl, rfl, rfl, rfl⟩) trivial
  | drain kind msg =>
      simp only [client] at ht
      split_ifs at ht with hpos <;> cases ht
      · have hcalls : s.calls = Function.update s.calls k (.drain kind msg) := by
          rw [← hpc, Function.update_eq_self]
        exact hv.moveInside hcalls rfl (hin trivial) trivial trivial
      · exact hv.moveInside rfl rfl (hin trivial) trivial trivial
  | writeHeader kind msg =>
      cases ht
      exact hv.moveInside rfl rfl (hin trivial) trivial ⟨hcond rfl, kind.header_mine k msg.length⟩
  | writeData kind msg =>
      cases ht
      exact hv.moveInside rfl rfl (hin trivial) trivial hsession
  | signal kind =>
      cases ht
      obtain ⟨⟨hserver, hc, hm⟩, hmine⟩ := hsession
      refine hv.moveInside rfl rfl (hin trivial) trivial ?_
      have hone : s.semClientMsg + 1 = 1 := by omega
      simp only [Session, State.setCall, hserver, Serving]
      exact .inl ⟨hone, hm, hmine⟩
  | waitAck kind =>
      simp only [client] at ht
      split_ifs at ht with hpos
      cases ht
      obtain ⟨hserver, hc, hm, hr⟩ := Serving.replied hsession hpos
      have hzero : s.semServerMsg - 1 = 0 := by omega
      cases kind with
      | pst => exact hv.moveInside rfl rfl (hin trivial) trivial (by simp [Session])
      | snd => exact hv.moveInside rfl rfl (hin trivial) trivial ⟨⟨hserver, hc, hzero⟩, hr⟩
  | readHeader =>
      cases ht
      obtain ⟨hq, hid, hcells⟩ := hsession
      have hsame : sameId s.header.msgId (uuid k) = true := by
        rw [hid]
        simp [sameId]
      rw [hsame]
      exact hv.moveInside rfl rfl (hin trivial) trivial ⟨hq, hcells⟩
  | copy size =>
      cases ht
      exact hv.moveInside rfl rfl (hin trivial) trivial hsession.2
  | unlock ret =>
      cases ht
      have hmove : Exclusive ({ s with semLock := s.semLock + 1 }.setCall k (.done ret)) := by
        refine hv.exclusive.move (k := k) rfl (.inr (.inr ⟨hin trivial, ?_, rfl⟩))
        exact id
      refine hv.moveCall rfl hmove (.inl (hin trivial)) ?_
      cases ret <;> exact hsession

-- A step of the server while a call waits. Outside the wait it is the server
-- that waits, or nobody listens.
theorem Valid.serves (hv : Valid uuid s) (hcalls : t.calls = s.calls)
    (hlock : t.semLock = s.semLock) (hbusy : ¬Quiet s)
    (hserving : ∀ k, Serving uuid s k s.server → Serving uuid t k t.server) :
    Valid uuid t := by
  constructor
  · obtain ⟨owner, hown, hl⟩ := hv.exclusive
    exact ⟨owner, hcalls ▸ hown, hlock.trans hl⟩
  · intro k
    have hs := hv.session k
    rw [hcalls]
    cases hpc : s.calls k with
    | writeData | signal | readHeader | copy =>
        rw [hpc] at hs
        exact absurd hs.1 hbusy
    | waitAck =>
        rw [hpc] at hs
        exact hserving k hs
    | unlock ret | done ret =>
        rw [hpc] at hs
        cases ret <;> exact hs
    | idle | lock | drain | writeHeader => trivial

theorem not_quiet (h : s.server ≠ .recWait) : ¬Quiet s := fun hq => h hq.1

theorem Mine.not_post {hdr : MsgHeader} (h : Mine uuid k hdr) : hdr.type ≠ .TYPE_POST := by
  rw [h.2]
  decide

theorem Valid.stepServer (hv : Valid uuid s) {pc : Server} (hpc : s.server = pc)
    (ht : server s pc = some t) : Valid uuid t := by
  cases pc with
  | recWait =>
      simp only [server] at ht
      split_ifs at ht with hpos
      cases ht
      refine hv.serves rfl rfl ?_ ?_
      · intro h
        obtain ⟨_, hc, _⟩ := h
        omega
      · intro k hs
        rw [hpc] at hs
        rcases hs with ⟨hc, hm, hmine⟩ | ⟨hc, _⟩ | ⟨hc, _⟩
        · have hzero : s.semClientMsg - 1 = 0 := by omega
          exact ⟨hzero, hm, hmine⟩
        · omega
        · omega
  | recHeader =>
      cases ht
      refine hv.serves rfl rfl (not_quiet (by simp [hpc])) fun k hs => ?_
      rw [hpc] at hs
      exact hs
  | recData hdr =>
      cases ht
      refine hv.serves rfl rfl (not_quiet (by simp [hpc])) fun k hs => ?_
      rw [hpc] at hs
      exact hs
  | recPost hdr request =>
      cases ht
      refine hv.serves rfl rfl (not_quiet (by simp [hpc])) fun k hs => ?_
      rw [hpc] at hs
      obtain ⟨hc, hm, hmine⟩ := hs
      cases request with
      | some request =>
          simp only [Serving, if_neg hmine.not_post]
          exact ⟨hc, hm, hmine⟩
      | none =>
          simp only [Serving, if_neg hmine.not_post]
          exact .inr (.inr ⟨hc, hm⟩)
  | received => cases ht
  | ackHeader hdr response =>
      cases ht
      refine hv.serves rfl rfl (not_quiet (by simp [hpc])) fun k hs => ?_
      rw [hpc] at hs
      obtain ⟨hc, hm, hmine, hsize⟩ := hs
      exact ⟨hc, hm, hmine, hsize, rfl⟩
  | ackData hdr response =>
      cases ht
      refine hv.serves rfl rfl (not_quiet (by simp [hpc])) fun k hs => ?_
      rw [hpc] at hs
      obtain ⟨hc, hm, hmine, hsize, hheader⟩ := hs
      refine ⟨hc, hm, ?_, ?_⟩
      · rw [hheader]
        exact hmine.1
      · intro cell hcell
        rw [hheader, hsize, hmine.1] at hcell
        exact Data.writer_of_mem_read hcell
  | ackSignal =>
      cases ht
      refine hv.serves rfl rfl (not_quiet (by simp [hpc])) fun k hs => ?_
      rw [hpc] at hs
      obtain ⟨hc, hm, hr⟩ := hs
      have hone : s.semServerMsg + 1 = 1 := by omega
      exact .inr (.inl ⟨hc, hone, hr⟩)

theorem Valid.step (hv : Valid uuid s) {a : Action} (hcond : Settled s a)
    (ht : step uuid storeSize s a = some t) : Valid uuid t := by
  cases a with
  | call k kind msg =>
      simp only [Ipc.step] at ht
      split at ht
      next hpc =>
        cases ht
        have hmove : Exclusive (s.setCall k (.lock kind msg)) := by
          refine hv.exclusive.move (k := k) rfl (.inl ⟨?_, rfl⟩)
          rw [hpc]
          exact Iff.rfl
        exact hv.moveCall rfl hmove (.inr ⟨rfl, rfl, rfl, rfl, rfl⟩) trivial
      next => cases ht
  | client k => exact hv.stepClient rfl hcond ht
  | timeout k =>
      simp only [Ipc.step] at ht
      split at ht
      next kind msg hpc =>
        cases ht
        have hmove : Exclusive (s.setCall k (.done none)) := by
          refine hv.exclusive.move (k := k) rfl (.inl ⟨?_, rfl⟩)
          rw [hpc]
          exact Iff.rfl
        exact hv.moveCall rfl hmove (.inr ⟨rfl, rfl, rfl, rfl, rfl⟩) trivial
      next kind hpc =>
        cases ht
        exact hv.moveInside rfl rfl (by rw [hpc]; trivial) trivial trivial
      next => cases ht
  | oom k =>
      simp only [Ipc.step] at ht
      split at ht
      next size hpc =>
        cases ht
        exact hv.moveInside rfl rfl (by rw [hpc]; trivial) trivial trivial
      next => cases ht
  | server => exact hv.stepServer rfl ht
  | serverOom =>
      simp only [Ipc.step] at ht
      split at ht
      next hdr hpc =>
        cases ht
        refine hv.serves rfl rfl (not_quiet (by simp [hpc])) fun k hs => ?_
        rw [hpc] at hs
        exact hs
      next => cases ht
  | ack response =>
      simp only [Ipc.step] at ht
      split at ht
      next hdr request hpc =>
        cases ht
        refine hv.serves rfl rfl (not_quiet (by simp [hpc])) fun k hs => ?_
        rw [hpc] at hs
        obtain ⟨hc, hm, hmine⟩ := hs
        exact ⟨hc, hm, hmine, rfl⟩
      next => cases ht
  | next =>
      simp only [Ipc.step] at ht
      split at ht
      next hdr request hpc =>
        split_ifs at ht with hpost
        cases ht
        refine hv.serves rfl rfl (not_quiet (by simp [hpc])) fun k hs => ?_
        rw [hpc] at hs
        exact absurd hpost hs.2.2.not_post
      next => cases ht

theorem initial_valid (header : MsgHeader) (data : ℕ → UInt8) :
    Valid uuid (initial header data) := by
  constructor
  · refine ⟨none, fun k => ?_, rfl⟩
    exact iff_of_false id (by simp)
  · intro k
    trivial

theorem reachable_valid (h : (system uuid storeSize).ReachableWhen Settled s) : Valid uuid s := by
  refine System.ReachableWhen.invariant (S := system uuid storeSize) ?_ ?_ h
  · intro s hinit
    obtain ⟨header, data, rfl⟩ := hinit
    exact initial_valid header data
  · intro s a t hv hcond ht
    exact hv.step hcond ht

-- A call that returns 0 returns bytes that answer it.
theorem response_of_ack (h : (system uuid storeSize).ReachableWhen Settled s) {k : ℕ}
    {response : List Cell} (hd : s.calls k = .done (some response)) :
    ∀ cell ∈ response, cell.writer = .ack (uuid k) := by
  have hs := (reachable_valid h).session k
  rw [hd] at hs
  exact hs

def blank : State := initial (sndHeader 0) fun _ => 0

-- Identifiers of 36 characters, as `random_uuid` writes them.
def plainId (k : ℕ) : Bytes := List.replicate 36 (UInt8.ofNat (48 + k)) ++ [0]

theorem response_of_ack_one_call : ∃ s, (system plainId storeSize).ReachableWhen Settled s ∧
    ∃ cell, s.calls 0 = .done (some [cell]) ∧ cell.writer = .ack (plainId 0) := by
  obtain ⟨s, hs⟩ : ∃ s, (system plainId storeSize).runWhen Settled blank
      [.call 0 .snd (ascii "a"), .client 0, .client 0, .client 0, .client 0, .client 0, .server,
        .server, .server, .server, .ack (ascii "r"), .server, .server, .server, .client 0, .client 0,
        .client 0, .client 0] = some s := ⟨_, rfl⟩
  have hreach : (system plainId storeSize).ReachableWhen Settled s :=
    System.ReachableWhen.runWhen (.init ⟨_, _, rfl⟩) hs
  obtain ⟨cell, hd⟩ : ∃ cell, s.calls 0 = .done (some [cell]) := by
    cases hs
    exact ⟨_, rfl⟩
  exact ⟨s, hreach, cell, hd, response_of_ack hreach hd cell (by simp)⟩

def DistinctIds (uuid : ℕ → Bytes) (s : State) : Prop :=
  ∀ i j, s.calls i ≠ .idle → s.calls j ≠ .idle → sameId (uuid i) (uuid j) → i = j

-- The first call gives up after the server has taken its message. The late
-- answer is overwritten by the second call, which then takes the answer's token
-- and reads its own request back.
def lateAck : List Action :=
  [.call 0 .snd (ascii "a"), .client 0, .client 0, .client 0, .client 0, .client 0, .server, .server,
    .server, .server, .timeout 0, .client 0, .call 1 .snd (ascii "b"), .client 1, .client 1,
    .ack (ascii "r"), .server, .server, .client 1, .client 1, .server, .client 1, .client 1,
    .client 1, .client 1, .client 1]

theorem response_of_request : ¬∀ (uuid : ℕ → Bytes) (s : State) (k : ℕ) (response : List Cell),
    (system uuid storeSize).Reachable s → DistinctIds uuid s →
    s.calls k = .done (some response) → ∀ cell ∈ response, cell.writer = .ack (uuid k) := by
  intro h
  obtain ⟨s, hs⟩ : ∃ s, (system plainId storeSize).run blank lateAck = some s := ⟨_, rfl⟩
  have hreach : (system plainId storeSize).Reachable s :=
    System.Reachable.run (.init ⟨_, _, rfl⟩) hs
  have hcalls : ∀ i, s.calls i ≠ .idle → i = 0 ∨ i = 1 := by
    cases hs
    intro i hi
    by_contra hn
    rw [not_or] at hn
    apply hi
    simp [State.setCall, blank, initial, hn]
  have hids : DistinctIds plainId s := by
    intro i j hi hj hsame
    obtain rfl | rfl := hcalls i hi <;> obtain rfl | rfl := hcalls j hj
    · rfl
    · exact absurd hsame (by decide)
    · exact absurd hsame (by decide)
    · rfl
  have hd : s.calls 1 = .done (some [⟨98, .request 1⟩]) := by
    cases hs
    rfl
  have hw := h plainId s 1 _ hreach hids hd _ (List.mem_singleton.mpr rfl)
  cases hw

end AsrServiceProxy.Ipc
