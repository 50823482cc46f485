import AsrServiceProxy.Utils.Ipc

-- The copies into and out of the segment, for any sequence of calls.
namespace AsrServiceProxy.Ipc

open CMemory Transition

-- `sizeof(msg_header_t)`: 37 bytes, 3 of padding, and two `int`s.
def headerSize : ℕ := 48

-- The part of the segment that a `memcpy` touches.
structure Copy where
  offset : ℕ
  length : ℕ
deriving DecidableEq, Repr

def Copy.header : Copy := { offset := 0, length := headerSize }

def Copy.message (length : ℕ) : Copy := { offset := headerSize, length := length }

-- A server may answer at any time between its calls, with any header, and it
-- may go on receiving without an answer.
inductive Use where
  | action (a : Action)
  | ackMsg (hdr : MsgHeader) (response : Bytes)
  | recMsg
deriving DecidableEq, Repr

def useStep (uuid : ℕ → Bytes) (s : State) : Use → Option State
  | .action a => step uuid asReceived s a
  | .ackMsg hdr response =>
      match s.server with
      | .recWait | .received _ _ => some { s with server := .ackHeader hdr response }
      | _ => none
  | .recMsg =>
      match s.server with
      | .received _ _ => some { s with server := .recWait }
      | _ => none

def anyUse (uuid : ℕ → Bytes) : System State Use where
  init s := ∃ header data, s = initial header data
  step := useStep uuid

def Client.copies : Client → List Copy
  | .writeHeader _ _ | .readHeader => [.header]
  | .writeData _ msg => [.message msg.length]
  | .copy size => [.message size]
  | .idle | .lock _ _ | .drain _ _ | .signal _ | .waitAck _ | .unlock _ | .done _ => []

def Server.copies : Server → List Copy
  | .recHeader | .ackHeader _ _ => [.header]
  | .recData hdr => [.message hdr.size]
  | .ackData _ response => [.message response.length]
  | .recWait | .recPost _ _ | .received _ _ | .ackSignal => []

def copies (s : State) : Use → List Copy
  | .action (.client k) => (s.calls k).copies
  | .action .server => s.server.copies
  | _ => []

def Copy.Within (size : ℕ) (c : Copy) : Prop := c.offset + c.length ≤ size

-- Every copy of every run stays inside a segment of `size` bytes.
def WithinSegment (uuid : ℕ → Bytes) (size : ℕ) : Prop :=
  ∀ s a t, (anyUse uuid).Reachable s → (anyUse uuid).step s a = some t →
    ∀ c ∈ copies s a, c.Within size

-- The condition on one call: what is sent fits behind the header, and an answer
-- also names a size that does.
def Fits (size : ℕ) (_ : State) : Use → Prop
  | .action (.call _ _ msg) => headerSize + msg.length ≤ size
  | .action (.ack response) => headerSize + response.length ≤ size
  | .ackMsg hdr response => headerSize + hdr.size ≤ size ∧ headerSize + response.length ≤ size
  | _ => True

def Client.Fits (size : ℕ) : Client → Prop
  | .lock _ msg | .drain _ msg | .writeHeader _ msg | .writeData _ msg =>
      headerSize + msg.length ≤ size
  | .copy length => headerSize + length ≤ size
  | .idle | .signal _ | .waitAck _ | .readHeader | .unlock _ | .done _ => True

-- The call has written its header and may still read the segment.
def Client.Sent : Client → Prop
  | .writeData _ _ | .signal _ | .waitAck _ | .readHeader => True
  | _ => False

def Server.Fits (size : ℕ) : Server → Prop
  | .recData hdr | .recPost hdr _ | .received hdr _ => headerSize + hdr.size ≤ size
  | .ackHeader hdr response | .ackData hdr response =>
      headerSize + hdr.size ≤ size ∧ headerSize + response.length ≤ size
  | .recWait | .recHeader | .ackSignal => True

-- Somebody has written the header.
def Written (s : State) : Prop :=
  (∃ k, (s.calls k).Sent) ∨ 0 < s.semClientMsg ∨ s.server = .recHeader

structure Bounded (size : ℕ) (s : State) : Prop where
  calls : ∀ k, (s.calls k).Fits size
  header : Written s → headerSize + s.header.size ≤ size
  server : s.server.Fits size

variable {uuid : ℕ → Bytes} {size k : ℕ} {s t : State} {a : Use}

theorem Kind.header_size_le (kind : Kind) (msgId : Bytes) (n : ℕ) :
    (kind.header msgId n).size ≤ n := by
  cases kind
  · exact Nat.zero_le n
  · exact Nat.le_refl n

-- A step of the call `k`, which ends in `new`.
theorem Bounded.moveCall (h : Bounded size s) {new : Client}
    (hcalls : t.calls = Function.update s.calls k new) (hserver : t.server = s.server)
    (hfit : new.Fits size) (hheader : Written t → headerSize + t.header.size ≤ size) :
    Bounded size t where
  calls := by
    intro j
    by_cases hj : j = k
    · rw [hj, hcalls, Function.update_self]
      exact hfit
    · rw [hcalls, Function.update_of_ne hj]
      exact h.calls j
  header := hheader
  server := by
    rw [hserver]
    exact h.server

-- A step that leaves the header alone, of a call that has not sent anything new.
theorem Bounded.moveOutside (h : Bounded size s) {new : Client}
    (hcalls : t.calls = Function.update s.calls k new) (hserver : t.server = s.server)
    (hheader : t.header = s.header) (hmsg : t.semClientMsg = s.semClientMsg)
    (hfit : new.Fits size) (hsent : new.Sent → Written s) : Bounded size t := by
  refine h.moveCall hcalls hserver hfit fun hw => ?_
  rw [hheader]
  apply h.header
  rcases hw with ⟨j, hj⟩ | hpos | hrec
  · by_cases hjk : j = k
    · rw [hjk, hcalls, Function.update_self] at hj
      exact hsent hj
    · rw [hcalls, Function.update_of_ne hjk] at hj
      exact .inl ⟨j, hj⟩
  · rw [hmsg] at hpos
    exact .inr (.inl hpos)
  · rw [hserver] at hrec
    exact .inr (.inr hrec)

theorem Bounded.moveServer (h : Bounded size s) (hcalls : t.calls = s.calls)
    (hfit : t.server.Fits size) (hheader : Written t → headerSize + t.header.size ≤ size) :
    Bounded size t where
  calls := by
    rw [hcalls]
    exact h.calls
  header := hheader
  server := hfit

-- A step of the server that neither writes the header nor takes a message.
theorem Bounded.moveQuietly (h : Bounded size s) (hcalls : t.calls = s.calls)
    (hheader : t.header = s.header) (hmsg : t.semClientMsg = s.semClientMsg)
    (hfit : t.server.Fits size) (hrec : t.server ≠ .recHeader) : Bounded size t := by
  refine h.moveServer hcalls hfit fun hw => ?_
  rw [hheader]
  apply h.header
  rcases hw with ⟨j, hj⟩ | hpos | hr
  · rw [hcalls] at hj
    exact .inl ⟨j, hj⟩
  · rw [hmsg] at hpos
    exact .inr (.inl hpos)
  · exact absurd hr hrec

theorem Bounded.stepClient (h : Bounded size s) {pc : Client} (hpc : s.calls k = pc)
    (ht : client uuid s k pc = some t) : Bounded size t := by
  have hfit : pc.Fits size := by
    rw [← hpc]
    exact h.calls k
  have hwritten : pc.Sent → Written s := fun hs => .inl ⟨k, by rw [hpc]; exact hs⟩
  cases pc with
  | idle | done => cases ht
  | lock kind msg =>
      simp only [client] at ht
      split_ifs at ht
      cases ht
      exact h.moveOutside rfl rfl rfl rfl hfit False.elim
  | drain kind msg =>
      simp only [client] at ht
      split_ifs at ht <;> cases ht
      · have hcalls : s.calls = Function.update s.calls k (.drain kind msg) := by
          rw [← hpc, Function.update_eq_self]
        exact h.moveOutside hcalls rfl rfl rfl hfit False.elim
      · exact h.moveOutside rfl rfl rfl rfl hfit False.elim
  | writeHeader kind msg =>
      cases ht
      refine h.moveCall rfl rfl hfit fun _ => ?_
      have hle := kind.header_size_le (uuid k) msg.length
      exact Nat.le_trans (Nat.add_le_add_left hle headerSize) hfit
  | writeData kind msg =>
      cases ht
      exact h.moveOutside rfl rfl rfl rfl trivial fun _ => hwritten trivial
  | signal kind =>
      cases ht
      exact h.moveCall rfl rfl trivial fun _ => h.header (hwritten trivial)
  | waitAck kind =>
      simp only [client] at ht
      split_ifs at ht
      cases ht
      cases kind <;> exact h.moveOutside rfl rfl rfl rfl trivial fun _ => hwritten trivial
  | readHeader =>
      simp only [client] at ht
      split_ifs at ht <;> cases ht
      · exact h.moveOutside rfl rfl rfl rfl (h.header (hwritten trivial)) fun _ => hwritten trivial
      · exact h.moveOutside rfl rfl rfl rfl trivial fun _ => hwritten trivial
  | copy length =>
      cases ht
      exact h.moveOutside rfl rfl rfl rfl trivial False.elim
  | unlock ret =>
      cases ht
      exact h.moveOutside rfl rfl rfl rfl trivial False.elim

theorem Bounded.stepServer (h : Bounded size s) {pc : Server} (hpc : s.server = pc)
    (ht : Ipc.server s pc = some t) : Bounded size t := by
  have hfit : pc.Fits size := by
    rw [← hpc]
    exact h.server
  cases pc with
  | recWait =>
      simp only [Ipc.server] at ht
      split_ifs at ht with hpos
      cases ht
      exact h.moveServer rfl trivial fun _ => h.header (.inr (.inl hpos))
  | recHeader =>
      cases ht
      exact h.moveQuietly rfl rfl rfl (h.header (.inr (.inr hpc))) nofun
  | recData hdr =>
      cases ht
      exact h.moveQuietly rfl rfl rfl hfit nofun
  | recPost hdr request =>
      cases ht
      cases request with
      | none => exact h.moveQuietly rfl rfl rfl trivial nofun
      | some request => exact h.moveQuietly rfl rfl rfl hfit nofun
  | received hdr request => cases ht
  | ackHeader hdr response =>
      cases ht
      exact h.moveServer rfl hfit fun _ => hfit.1
  | ackData hdr response =>
      cases ht
      exact h.moveQuietly rfl rfl rfl trivial nofun
  | ackSignal =>
      cases ht
      exact h.moveQuietly rfl rfl rfl trivial nofun

theorem Bounded.stepAction (h : Bounded size s) {a : Action} (hc : Fits size s (.action a))
    (ht : step uuid asReceived s a = some t) : Bounded size t := by
  cases a with
  | call k kind msg =>
      simp only [step] at ht
      split at ht
      · cases ht
        exact h.moveOutside rfl rfl rfl rfl hc False.elim
      · cases ht
  | client k => exact h.stepClient rfl ht
  | timeout k =>
      simp only [step] at ht
      split at ht
      · cases ht
        exact h.moveOutside rfl rfl rfl rfl trivial False.elim
      · cases ht
        exact h.moveOutside rfl rfl rfl rfl trivial False.elim
      · cases ht
  | oom k =>
      simp only [step] at ht
      split at ht
      · cases ht
        exact h.moveOutside rfl rfl rfl rfl trivial False.elim
      · cases ht
  | server => exact h.stepServer rfl ht
  | serverOom =>
      simp only [step] at ht
      split at ht
      next hdr hserver =>
        cases ht
        have hfit := h.server
        rw [hserver] at hfit
        exact h.moveQuietly rfl rfl rfl hfit nofun
      next => cases ht
  | ack response =>
      simp only [step] at ht
      split at ht
      next hdr request hserver =>
        cases ht
        have hfit := h.server
        rw [hserver] at hfit
        exact h.moveQuietly rfl rfl rfl ⟨hfit, hc⟩ nofun
      next => cases ht
  | next =>
      simp only [step] at ht
      split at ht
      · split_ifs at ht
        cases ht
        exact h.moveQuietly rfl rfl rfl trivial nofun
      · cases ht

theorem Bounded.step (h : Bounded size s) (hc : Fits size s a)
    (ht : useStep uuid s a = some t) : Bounded size t := by
  cases a with
  | action a => exact h.stepAction hc ht
  | ackMsg hdr response =>
      simp only [useStep] at ht
      split at ht
      · cases ht
        exact h.moveQuietly rfl rfl rfl hc nofun
      · cases ht
        exact h.moveQuietly rfl rfl rfl hc nofun
      · cases ht
  | recMsg =>
      simp only [useStep] at ht
      split at ht
      · cases ht
        exact h.moveQuietly rfl rfl rfl trivial nofun
      · cases ht

theorem reachable_bounded (h : (anyUse uuid).ReachableWhen (Fits size) s) : Bounded size s := by
  refine h.invariant (fun s hs => ?_) (fun s a t hi hc ht => hi.step hc ht)
  obtain ⟨header, data, rfl⟩ := hs
  refine ⟨fun _ => trivial, fun hw => ?_, trivial⟩
  rcases hw with ⟨k, hk⟩ | hpos | hrec
  · exact hk.elim
  · exact absurd hpos (Nat.lt_irrefl 0)
  · cases hrec

theorem Copy.header_within (h : headerSize + k ≤ size) : Copy.header.Within size := by
  show 0 + headerSize ≤ size
  omega

theorem Bounded.client_copies (h : Bounded size s) (k : ℕ) :
    ∀ c ∈ (s.calls k).copies, c.Within size := by
  have hfit := h.calls k
  have hheader : (s.calls k).Sent → headerSize + s.header.size ≤ size :=
    fun hs => h.header (.inl ⟨k, hs⟩)
  cases hpc : s.calls k with
  | writeHeader kind msg =>
      rw [hpc] at hfit
      exact List.forall_mem_singleton.mpr (Copy.header_within hfit)
  | readHeader =>
      rw [hpc] at hheader
      exact List.forall_mem_singleton.mpr (Copy.header_within (hheader trivial))
  | writeData kind msg =>
      rw [hpc] at hfit
      exact List.forall_mem_singleton.mpr hfit
  | copy length =>
      rw [hpc] at hfit
      exact List.forall_mem_singleton.mpr hfit
  | _ => nofun

theorem Bounded.server_copies (h : Bounded size s) : ∀ c ∈ s.server.copies, c.Within size := by
  have hfit := h.server
  cases hpc : s.server with
  | recHeader =>
      exact List.forall_mem_singleton.mpr (Copy.header_within (h.header (.inr (.inr hpc))))
  | ackHeader hdr response =>
      rw [hpc] at hfit
      exact List.forall_mem_singleton.mpr (Copy.header_within hfit.1)
  | recData hdr =>
      rw [hpc] at hfit
      exact List.forall_mem_singleton.mpr hfit
  | ackData hdr response =>
      rw [hpc] at hfit
      exact List.forall_mem_singleton.mpr hfit.2
  | _ => nofun

-- What the copies do not cover is unchanged.
def Untouched (copies : List Copy) (s t : State) : Prop :=
  (Copy.header ∉ copies → t.header = s.header) ∧
    ∀ i, (∀ n, .message n ∈ copies → n ≤ i) → t.data i = s.data i

theorem Untouched.of_eq {touched : List Copy} (hh : t.header = s.header) (hd : t.data = s.data) :
    Untouched touched s t := by
  refine ⟨fun _ => hh, fun i _ => ?_⟩
  rw [hd]

theorem Untouched.of_header (hd : t.data = s.data) : Untouched [.header] s t := by
  refine ⟨fun hnot => absurd (List.mem_singleton.mpr rfl) hnot, fun i _ => ?_⟩
  rw [hd]

theorem Untouched.of_write {writer : Writer} {bytes : Bytes} (hh : t.header = s.header)
    (hd : t.data = s.data.write writer bytes) : Untouched [.message bytes.length] s t := by
  refine ⟨fun _ => hh, fun i hi => ?_⟩
  have hle := hi bytes.length (List.mem_singleton.mpr rfl)
  rw [hd, Data.write, List.getElem?_eq_none hle]

theorem client_untouched {pc : Client} (ht : client uuid s k pc = some t) :
    Untouched pc.copies s t := by
  cases pc with
  | idle | done => cases ht
  | lock | drain | waitAck =>
      simp only [client] at ht
      split_ifs at ht <;> cases ht <;> exact .of_eq rfl rfl
  | writeHeader =>
      cases ht
      exact .of_header rfl
  | writeData =>
      cases ht
      exact .of_write rfl rfl
  | signal | readHeader | copy | unlock =>
      cases ht
      exact .of_eq rfl rfl

theorem server_untouched {pc : Server} (ht : Ipc.server s pc = some t) :
    Untouched pc.copies s t := by
  cases pc with
  | recWait =>
      simp only [Ipc.server] at ht
      split_ifs at ht
      cases ht
      exact .of_eq rfl rfl
  | received => cases ht
  | ackHeader =>
      cases ht
      exact .of_header rfl
  | ackData =>
      cases ht
      exact .of_write rfl rfl
  | recHeader | recData | recPost | ackSignal =>
      cases ht
      exact .of_eq rfl rfl

theorem useStep_untouched (ht : useStep uuid s a = some t) : Untouched (copies s a) s t := by
  cases a with
  | action a =>
      cases a with
      | client k => exact client_untouched ht
      | server => exact server_untouched ht
      | call | timeout | oom | serverOom | ack =>
          simp only [useStep, step] at ht
          split at ht <;> cases ht <;> exact .of_eq rfl rfl
      | next =>
          simp only [useStep, step] at ht
          split at ht
          · split_ifs at ht
            cases ht
            exact .of_eq rfl rfl
          · cases ht
  | ackMsg | recMsg =>
      simp only [useStep] at ht
      split at ht <;> cases ht <;> exact .of_eq rfl rfl

theorem fitting_calls_within_segment (uuid : ℕ → Bytes) (size : ℕ) :
    ∀ s a t, (anyUse uuid).ReachableWhen (Fits size) s → (anyUse uuid).step s a = some t →
      ∀ c ∈ copies s a, c.Within size := by
  intro s a t h _
  have hb := reachable_bounded h
  cases a with
  | action a =>
      cases a with
      | client k => exact hb.client_copies k
      | server => exact hb.server_copies
      | _ => nofun
  | _ => nofun

def noId (_ : ℕ) : Bytes := []

def blankSegment : State := initial (sndHeader 0) fun _ => 0

-- A call up to the copy of its message.
def upToData (msg : Bytes) : List Use :=
  .action (.call 0 .pst msg) :: List.replicate 3 (.action (.client 0))

theorem fitting_calls_within_segment_one_call :
    ∃ s, .message 1 ∈ copies s (.action (.client 0)) ∧ (Copy.message 1).Within 64 := by
  obtain ⟨s, hs⟩ : ∃ s, (anyUse noId).run blankSegment (upToData [97]) = some s := ⟨_, rfl⟩
  have hfits : headerSize + 1 ≤ 64 := by decide
  have hmeets : (anyUse noId).Meets (Fits 64) blankSegment (upToData [97]) :=
    ⟨hfits, trivial, trivial, trivial, trivial⟩
  have hreach : (anyUse noId).ReachableWhen (Fits 64) s :=
    System.ReachableWhen.run (.init ⟨_, _, rfl⟩) hmeets hs
  obtain ⟨t, ht⟩ : ∃ t, (anyUse noId).step s (.action (.client 0)) = some t := by
    cases hs
    exact ⟨_, rfl⟩
  have hmem : .message 1 ∈ copies s (.action (.client 0)) := by
    cases hs
    exact List.mem_singleton.mpr rfl
  exact ⟨s, hmem, fitting_calls_within_segment noId 64 _ _ _ hreach ht _ hmem⟩

-- A message that is larger than the segment is copied all the same.
theorem not_withinSegment : ¬WithinSegment noId 64 := by
  intro h
  obtain ⟨s, hs⟩ : ∃ s, (anyUse noId).run blankSegment (upToData (List.replicate 17 0)) = some s :=
    ⟨_, rfl⟩
  have hreach : (anyUse noId).Reachable s := System.Reachable.run (.init ⟨_, _, rfl⟩) hs
  obtain ⟨t, ht⟩ : ∃ t, (anyUse noId).step s (.action (.client 0)) = some t := by
    cases hs
    exact ⟨_, rfl⟩
  have hmem : .message 17 ∈ copies s (.action (.client 0)) := by
    cases hs
    exact List.mem_singleton.mpr rfl
  have hwithin : headerSize + 17 ≤ 64 := h s _ t hreach ht _ hmem
  exact absurd hwithin (by decide)

end AsrServiceProxy.Ipc
