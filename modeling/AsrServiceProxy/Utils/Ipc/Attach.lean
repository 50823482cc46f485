import AsrServiceProxy.Utils.Ipc.Correspondence
import AsrServiceProxy.Utils.Ipc.Kernel

namespace AsrServiceProxy.Ipc

open CMemory Mutex Transition

-- What a step of one call does to `SEM_LOCK`.
inductive LockMove (before after : Client) (lock : ℕ) : ℕ → Prop
  | keep (h : after.Inside ↔ before.Inside) : LockMove before after lock lock
  | enter (hpos : 0 < lock) (h : after.Inside) : LockMove before after lock (lock - 1)
  | leave (hin : before.Inside) (hout : ¬after.Inside) : LockMove before after lock (lock + 1)

section

variable {uuid : ℕ → Bytes} {prepare : Prepare} {s t : State} {k : ℕ}

theorem State.setCall_self (s : State) (k : ℕ) (pc : Client) : (s.setCall k pc).calls k = pc := by
  simp only [State.setCall, Function.update_self]

theorem client_lockMove {pc : Client} (hpc : s.calls k = pc) (ht : client uuid s k pc = some t) :
    LockMove pc (t.calls k) s.semLock t.semLock := by
  cases pc with
  | idle | done => cases ht
  | lock kind msg =>
      simp only [client] at ht
      split_ifs at ht with hpos
      cases ht
      rw [State.setCall_self]
      exact .enter hpos trivial
  | drain kind msg =>
      simp only [client] at ht
      split_ifs at ht with hpos <;> cases ht
      · rw [hpc]
        exact .keep Iff.rfl
      · rw [State.setCall_self]
        exact .keep Iff.rfl
  | writeHeader kind msg | writeData kind msg | signal kind | copy size =>
      cases ht
      rw [State.setCall_self]
      exact .keep Iff.rfl
  | waitAck kind =>
      simp only [client] at ht
      split_ifs at ht with hpos
      cases ht
      rw [State.setCall_self]
      cases kind <;> exact .keep Iff.rfl
  | readHeader =>
      cases ht
      rw [State.setCall_self]
      split <;> exact .keep Iff.rfl
  | unlock ret =>
      cases ht
      rw [State.setCall_self]
      exact .leave trivial id

-- The server works on the other two semaphores.
theorem server_frame {pc : Server} (ht : server s pc = some t) :
    t.calls = s.calls ∧ t.semLock = s.semLock := by
  cases pc with
  | recWait =>
      simp only [server] at ht
      split_ifs at ht
      cases ht
      exact ⟨rfl, rfl⟩
  | received => cases ht
  | _ =>
      cases ht
      exact ⟨rfl, rfl⟩

theorem step_lockMove (hidle : ∀ j, j ≠ k → s.calls j = .idle) {a : Action}
    (hcall : ∀ j kind msg, a ≠ .call j kind msg) (ht : step uuid prepare s a = some t) :
    LockMove (s.calls k) (t.calls k) s.semLock t.semLock := by
  cases a with
  | call j kind msg => exact absurd rfl (hcall j kind msg)
  | client j =>
      by_cases hj : j = k
      · subst hj
        exact client_lockMove rfl ht
      · simp only [step, hidle j hj, client, reduceCtorEq] at ht
  | timeout j =>
      by_cases hj : j = k
      · subst hj
        simp only [step] at ht
        split at ht
        next hpc =>
          cases ht
          rw [State.setCall_self, hpc]
          exact .keep Iff.rfl
        next hpc =>
          cases ht
          rw [State.setCall_self, hpc]
          exact .keep Iff.rfl
        next => cases ht
      · simp only [step, hidle j hj, reduceCtorEq] at ht
  | oom j =>
      by_cases hj : j = k
      · subst hj
        simp only [step] at ht
        split at ht
        next hpc =>
          cases ht
          rw [State.setCall_self, hpc]
          exact .keep Iff.rfl
        next => cases ht
      · simp only [step, hidle j hj, reduceCtorEq] at ht
  | server =>
      obtain ⟨hcalls, hlock⟩ := server_frame ht
      rw [hcalls, hlock]
      exact .keep Iff.rfl
  | serverOom | ack =>
      simp only [step] at ht
      split at ht <;> cases ht
      exact .keep Iff.rfl
  | next =>
      simp only [step] at ht
      split at ht
      · split_ifs at ht
        cases ht
        exact .keep Iff.rfl
      · cases ht

end

-- Between a successful `semp(SEM_LOCK)` and the `semv(SEM_LOCK)` after it.
def Proc.Inside : Proc → Prop
  | .attached _ _ call _ => call.Inside
  | .detached | .attaching _ => False

theorem Client.not_inside_of_finished {call : Client} (h : call.finished) : ¬call.Inside := by
  cases call with
  | idle | done => exact id
  | _ => cases h

namespace Kernel

variable {K K' : Kernel} {id : ℤ}

theorem shmget_cases {key fresh : ℤ} {size : ℕ} {creat : Bool}
    (h : K.shmget key size creat fresh = some (K', id)) :
    K'.semIds = K.semIds ∧ K'.sets = K.sets ∧
      ((K' = K ∧ K.shmIds key = some id) ∨
      (K.shmIds key = none ∧ K'.shmIds = Function.update K.shmIds key (some id))) := by
  unfold shmget at h
  split at h
  next hid =>
    obtain ⟨segment, -, h⟩ := Option.bind_eq_some_iff.mp h
    split_ifs at h
    cases h
    exact ⟨rfl, rfl, .inl ⟨rfl, hid⟩⟩
  next hid =>
    split_ifs at h
    cases h
    exact ⟨rfl, rfl, .inr ⟨hid, rfl⟩⟩

-- An existing set is left as it is, and a new one has all its counts at 0.
theorem semget_cases {key fresh : ℤ} {nsems : ℕ} {creat : Bool}
    (h : K.semget key nsems creat fresh = some (K', id)) :
    K'.shmIds = K.shmIds ∧
      ((K' = K ∧ K.semIds key = some id) ∨
      (K.semIds key = none ∧ K'.semIds = Function.update K.semIds key (some id) ∧
        K'.count id SEM_LOCK = 0)) := by
  unfold semget at h
  split at h
  next hid =>
    obtain ⟨set, -, h⟩ := Option.bind_eq_some_iff.mp h
    split_ifs at h
    cases h
    exact ⟨rfl, .inl ⟨rfl, hid⟩⟩
  next hid =>
    split_ifs at h
    cases h
    refine ⟨rfl, .inr ⟨hid, rfl, ?_⟩⟩
    cases nsems <;> simp [count, SEM_LOCK]

theorem setval_frame {num val : ℕ} (h : K.setval id num val = some K') :
    0 ≤ id ∧ K'.shmIds = K.shmIds ∧ K'.semIds = K.semIds ∧ K'.count id num ≤ val := by
  unfold setval at h
  split_ifs at h with hneg
  obtain ⟨set, -, h⟩ := Option.bind_eq_some_iff.mp h
  split_ifs at h with hnum
  cases h
  refine ⟨by omega, rfl, rfl, ?_⟩
  simp [count, hnum]

theorem store_sets_of_ne {segment : Segment} {ptr sem : ℤ} {t : State} (hne : id ≠ sem) :
    (K.store segment ptr sem t).sets id = K.sets id := by
  simp only [store, Function.update_of_ne hne]

theorem store_lock_le (K : Kernel) (segment : Segment) (ptr sem : ℤ) (t : State) :
    (K.store segment ptr sem t).count sem SEM_LOCK ≤ t.semLock := by
  simp only [count, store, Function.update_self]
  cases K.sets sem with
  | none => simp
  | some set =>
      cases set with
      | nil => simp [storeCounts]
      | cons n rest => simp [storeCounts, SEM_LOCK, SEM_CLIENT_MSG, SEM_SERVER_MSG]

end Kernel

-- The objects that a process has are the ones registered for the keys.
def Proc.HasIds (shmId semId : Option ℤ) : Proc → Prop
  | .detached | .attaching .shmget => True
  | .attaching (.shmat id) | .attaching (.semget id _) => shmId = some id
  | .attaching (.semctl shm) => shmId = some shm.shmId ∧ (0 ≤ shm.semId → semId = some shm.semId)
  | .attached shm _ _ _ => shmId = some shm.shmId ∧ semId = some shm.semId

def Registered (c : Channel) (K : Kernel) (proc : Proc) : Prop :=
  proc.HasIds (K.shmIds c.shmKey) (K.semIds c.semKey)

-- Nothing is removed: what is registered for the keys stays registered.
def Grows (c : Channel) (K K' : Kernel) : Prop :=
  (∀ id, K.shmIds c.shmKey = some id → K'.shmIds c.shmKey = some id) ∧
  (∀ id, K.semIds c.semKey = some id → K'.semIds c.semKey = some id)

section

variable {c : Channel} {uuid : ℕ → Bytes} {prepare : Prepare} {s t : Net} {p : Party} {proc : Proc}
  {K K' : Kernel}

theorem Grows.of_eq (hshm : K'.shmIds = K.shmIds) (hsem : K'.semIds = K.semIds) : Grows c K K' := by
  unfold Grows
  rw [hshm, hsem]
  exact ⟨fun _ => id, fun _ => id⟩

theorem Grows.trans {K'' : Kernel} (h : Grows c K K') (h' : Grows c K' K'') : Grows c K K'' :=
  ⟨fun id hid => h'.1 id (h.1 id hid), fun id hid => h'.2 id (h.2 id hid)⟩

theorem Registered.grows (h : Registered c K proc) (hg : Grows c K K') : Registered c K' proc := by
  cases proc with
  | detached => trivial
  | attached shm k call server => exact ⟨hg.1 _ h.1, hg.2 _ h.2⟩
  | attaching pc =>
      cases pc with
      | shmget => trivial
      | shmat id => exact hg.1 _ h
      | semget id ptr => exact hg.1 _ h
      | semctl shm => exact ⟨hg.1 _ h.1, fun hpos => hg.2 _ (h.2 hpos)⟩

-- Each system call of `init_shm_ipc` gives the process what is registered.
theorem attach_registered {pc : Attach} {role : Role} {fresh : ℤ} {ok : Bool}
    (h : Registered c K (.attaching pc)) :
    Registered c (attach c role K fresh ok pc).1 (attach c role K fresh ok pc).2 ∧
      Grows c K (attach c role K fresh ok pc).1 := by
  have hsame : Grows c K K := .of_eq rfl rfl
  cases pc with
  | shmget =>
      simp only [attach]
      split
      next K' shmId hget =>
        obtain ⟨hsem, -, hcases⟩ := Kernel.shmget_cases hget
        rcases hcases with ⟨rfl, hid⟩ | ⟨hnone, hids⟩
        · exact ⟨hid, hsame⟩
        · refine ⟨?_, ?_, ?_⟩
          · simp only [Registered, Proc.HasIds, hids, Function.update_self]
          · intro id hid
            rw [hnone] at hid
            cases hid
          · intro id hid
            rw [hsem]
            exact hid
      next => exact ⟨trivial, hsame⟩
  | shmat shmId =>
      simp only [attach]
      split
      · exact ⟨h, hsame⟩
      · exact ⟨trivial, hsame⟩
  | semget shmId shmPtr =>
      simp only [attach]
      split
      next K' semId hget =>
        obtain ⟨hshm, hcases⟩ := Kernel.semget_cases hget
        rcases hcases with ⟨rfl, hid⟩ | ⟨hnone, hids, -⟩
        · exact ⟨⟨h, fun _ => hid⟩, hsame⟩
        · refine ⟨⟨?_, fun _ => ?_⟩, ?_, ?_⟩
          · rw [hshm]
            exact h
          · simp only [hids, Function.update_self]
          · intro id hid
            rw [hshm]
            exact hid
          · intro id hid
            rw [hnone] at hid
            cases hid
      next =>
        have hneg : ¬(0 : ℤ) ≤ -1 := by decide
        exact ⟨⟨h, fun hpos => absurd hpos hneg⟩, hsame⟩
  | semctl shm =>
      simp only [attach]
      split
      next K' hset =>
        obtain ⟨hpos, hshm, hsem, -⟩ := Kernel.setval_frame hset
        rw [if_neg (by omega)]
        refine ⟨⟨?_, ?_⟩, .of_eq hshm hsem⟩
        · rw [hshm]
          exact h.1
        · rw [hsem]
          exact h.2 hpos
      next => exact ⟨trivial, hsame⟩

theorem act_frame {sem : ℤ} {shm : ShmIpc} {k : ℕ} {call : Client} {server : Server} {a : Action}
    {r : Kernel × Proc} (h : act uuid prepare K sem shm k call server a = some r) :
    r.1.shmIds = K.shmIds ∧ r.1.semIds = K.semIds ∧
      (∀ id, id ≠ sem → r.1.sets id = K.sets id) ∧
      ∃ call' server', r.2 = .attached shm k call' server' := by
  obtain ⟨segment, -, h⟩ := Option.bind_eq_some_iff.mp h
  obtain ⟨t, -, rfl⟩ := Option.map_eq_some_iff.mp h
  exact ⟨rfl, rfl, fun id hid => Kernel.store_sets_of_ne hid, _, _, rfl⟩

theorem Net.setProc_self (s : Net) (p : Party) (proc : Proc) :
    (s.setProc p proc).procs p = proc := by
  simp only [Net.setProc, Function.update_self]

theorem Net.setProc_of_ne {q : Party} (hq : q ≠ p) : (s.setProc p proc).procs q = s.procs q := by
  simp only [Net.setProc, Function.update_of_ne hq]

-- One step of a process: into `init_shm_ipc`, in it, into a call, or in a call.
inductive NetStep (c : Channel) (uuid : ℕ → Bytes) (prepare : Prepare) (used : ShmIpc → ℤ)
    (s : Net) : NetAction → Kernel → Party → Proc → Prop
  | init (p : Party) (h : s.procs p = .detached ∨ ∃ shm k call server,
      s.procs p = .attached shm k call server ∧ call.finished) :
      NetStep c uuid prepare used s (.init p) s.kernel p (.attaching .shmget)
  | attach (p : Party) (fresh : ℤ) (ok : Bool) (pc : Attach) (h : s.procs p = .attaching pc) :
      NetStep c uuid prepare used s (.attach p fresh ok)
        (attach c p.role s.kernel fresh ok pc).1 p (attach c p.role s.kernel fresh ok pc).2
  | call (p : Party) (k : ℕ) (kind : Kind) (msg : Bytes) (shm : ShmIpc) (j : ℕ) (call : Client)
      (server : Server) (h : s.procs p = .attached shm j call server) (hfin : call.finished) :
      NetStep c uuid prepare used s (.call p k kind msg) s.kernel p
        (.attached shm k (.lock kind msg) server)
  | act (p : Party) (a : Action) (shm : ShmIpc) (k : ℕ) (call : Client) (server : Server)
      (h : s.procs p = .attached shm k call server) (hcall : ∀ j kind msg, a ≠ .call j kind msg)
      (r : Kernel × Proc)
      (hr : act uuid prepare s.kernel (used shm) shm k call server a = some r) :
      NetStep c uuid prepare used s (.act p a) r.1 p r.2

theorem netStep_cases {used : ShmIpc → ℤ} {a : NetAction}
    (ht : netStep c uuid prepare used s a = some t) :
    ∃ K p proc, NetStep c uuid prepare used s a K p proc ∧
      t = { s with kernel := K }.setProc p proc := by
  cases a with
  | init p =>
      simp only [netStep] at ht
      split at ht
      next hproc =>
        cases ht
        exact ⟨_, _, _, .init p (.inl hproc), rfl⟩
      next hproc =>
        split_ifs at ht with hfin
        cases ht
        exact ⟨_, _, _, .init p (.inr ⟨_, _, _, _, hproc, hfin.1⟩), rfl⟩
      next => cases ht
  | attach p fresh ok =>
      simp only [netStep] at ht
      split at ht
      next pc hproc =>
        cases ht
        exact ⟨_, _, _, .attach p fresh ok pc hproc, rfl⟩
      next => cases ht
  | call p k kind msg =>
      simp only [netStep] at ht
      split at ht
      next shm j call server hproc =>
        split_ifs at ht with hfin
        cases ht
        exact ⟨_, _, _, .call p k kind msg shm j call server hproc hfin, rfl⟩
      next => cases ht
  | act p a =>
      simp only [netStep] at ht
      split at ht
      next => cases ht
      next shm k call server hproc hcall =>
        obtain ⟨r, hr, rfl⟩ := Option.map_eq_some_iff.mp ht
        exact ⟨_, _, _, .act p _ shm k call server hproc hcall r hr, rfl⟩
      next => cases ht

def Attached (c : Channel) (s : Net) : Prop := ∀ p, Registered c s.kernel (s.procs p)

-- Whichever id the calls pass, each process keeps what is registered.
theorem NetStep.registered {used : ShmIpc → ℤ} {a : NetAction}
    (hs : NetStep c uuid prepare used s a K p proc) (h : Attached c s) :
    Registered c K proc ∧ Grows c s.kernel K := by
  have hp := h p
  cases hs with
  | init p hproc => exact ⟨trivial, .of_eq rfl rfl⟩
  | attach p fresh ok pc hproc =>
      rw [hproc] at hp
      exact attach_registered hp
  | call p k kind msg shm j call server hproc hfin =>
      rw [hproc] at hp
      exact ⟨hp, .of_eq rfl rfl⟩
  | act p a shm k call server hproc hcall r hr =>
      rw [hproc] at hp
      obtain ⟨hshm, hsem, -, call', server', hproc'⟩ := act_frame hr
      have hg : Grows c s.kernel r.1 := .of_eq hshm hsem
      rw [hproc']
      exact ⟨⟨hg.1 _ hp.1, hg.2 _ hp.2⟩, hg⟩

theorem Attached.step (h : Attached c s) {used : ShmIpc → ℤ} {a : NetAction}
    (ht : netStep c uuid prepare used s a = some t) :
    Attached c t ∧ Grows c s.kernel t.kernel := by
  obtain ⟨K, p, proc, hs, rfl⟩ := netStep_cases ht
  obtain ⟨hproc, hg⟩ := hs.registered h
  refine ⟨?_, hg⟩
  intro q
  by_cases hq : q = p
  · rw [hq, Net.setProc_self]
    exact hproc
  · rw [Net.setProc_of_ne hq]
    exact (h q).grows hg

theorem attached_of_detached (hprocs : s.procs = fun _ => .detached) : Attached c s := by
  intro p
  rw [hprocs]
  trivial

end

-- The count of `SEM_LOCK` and the processes inside are together at most one.
def Guarded (c : Channel) (s : Net) : Prop :=
  ∃ owner : Option Party, Owned owner (fun p => (s.procs p).Inside) ∧
    ∀ id, s.kernel.semIds c.semKey = some id →
      s.kernel.count id SEM_LOCK ≤ if owner = none then 1 else 0

def Proc.setsLock : Proc → Bool
  | .attaching (.semctl _) => true
  | _ => false

-- The condition on one step: `SETVAL` comes only while no process is inside.
def Unheld (s : Net) : NetAction → Prop
  | .attach p _ _ => (s.procs p).setsLock → ∀ q, ¬(s.procs q).Inside
  | _ => True

section

variable {c : Channel} {uuid : ℕ → Bytes} {prepare : Prepare} {s t : Net} {p : Party} {proc : Proc}
  {K : Kernel} {owner owner' : Option Party}

theorem Guarded.setProc (hown : Owned owner (fun q => (s.procs q).Inside))
    (hmove : Move p (s.procs p).Inside proc.Inside owner owner')
    (hcount : ∀ id, K.semIds c.semKey = some id →
      K.count id SEM_LOCK ≤ if owner' = none then 1 else 0) :
    Guarded c ({ s with kernel := K }.setProc p proc) := by
  refine ⟨owner', hown.move hmove ?_ ?_, hcount⟩
  · rw [Net.setProc_self]
  · intro q hq
    rw [Net.setProc_of_ne hq]

-- A step outside the section that leaves the sets as they are.
theorem Guarded.setOutside (h : Guarded c s) (hids : K.semIds = s.kernel.semIds)
    (hsets : K.sets = s.kernel.sets) (hold : ¬(s.procs p).Inside) (hnew : ¬proc.Inside) :
    Guarded c ({ s with kernel := K }.setProc p proc) := by
  obtain ⟨owner, hown, hlock⟩ := h
  refine Guarded.setProc hown (.keep (iff_of_false hnew hold)) ?_
  intro id hid
  rw [hids] at hid
  unfold Kernel.count
  rw [hsets]
  exact hlock id hid

-- `init_shm_ipc` enters no section. It makes the set, whose counts are 0, and
-- sets `SEM_LOCK` to 1 while nobody is inside.
theorem Guarded.attach (h : Guarded c s) (ha : Attached c s) {pc : Attach} {fresh : ℤ} {ok : Bool}
    (hproc : s.procs p = .attaching pc) (hcond : Unheld s (.attach p fresh ok)) :
    Guarded c ({ s with kernel := (attach c p.role s.kernel fresh ok pc).1 }.setProc p
      (attach c p.role s.kernel fresh ok pc).2) := by
  have hold : ¬(s.procs p).Inside := by
    rw [hproc]
    exact id
  cases pc with
  | shmget =>
      simp only [Ipc.attach]
      split
      next K' shmId hget =>
        obtain ⟨hids, hsets, -⟩ := Kernel.shmget_cases hget
        exact h.setOutside hids hsets hold id
      next => exact h.setOutside rfl rfl hold id
  | shmat shmId =>
      simp only [Ipc.attach]
      split <;> exact h.setOutside rfl rfl hold id
  | semget shmId shmPtr =>
      simp only [Ipc.attach]
      split
      next K' semId hget =>
        obtain ⟨-, hcases⟩ := Kernel.semget_cases hget
        rcases hcases with ⟨rfl, hid⟩ | ⟨hnone, hids, hzero⟩
        · exact h.setOutside rfl rfl hold id
        · obtain ⟨owner, hown, -⟩ := h
          refine Guarded.setProc hown (.keep (iff_of_false id hold)) ?_
          intro id hid
          rw [hids, Function.update_self] at hid
          cases hid
          rw [hzero]
          exact Nat.zero_le _
      next => exact h.setOutside rfl rfl hold id
  | semctl shm =>
      have hset := ha p
      rw [hproc] at hset
      have hout : ∀ q, ¬(s.procs q).Inside := hcond (by rw [hproc]; rfl)
      simp only [Ipc.attach]
      split
      next K' hset' =>
        obtain ⟨hpos, -, hids, hcount⟩ := Kernel.setval_frame hset'
        rw [if_neg (by omega)]
        obtain ⟨owner, hown, -⟩ := h
        have hnone : owner = none := by
          by_contra hne
          obtain ⟨q, hq⟩ := Option.ne_none_iff_exists'.mp hne
          exact hout q ((hown q).mpr hq)
        subst hnone
        refine Guarded.setProc hown (.keep (iff_of_false id hold)) ?_
        intro id hid
        rw [hids, hset.2 hpos] at hid
        cases hid
        exact hcount
      next => exact h.setOutside rfl rfl hold id

-- A step of a call. The semaphore that it takes or gives back is the one of the
-- set that is registered.
theorem Guarded.act (h : Guarded c s) (ha : Attached c s) {shm : ShmIpc} {k : ℕ} {call : Client}
    {server : Server} (hproc : s.procs p = .attached shm k call server) {a : Action}
    (hcall : ∀ j kind msg, a ≠ .call j kind msg) {r : Kernel × Proc}
    (hr : act uuid prepare s.kernel shm.semId shm k call server a = some r) :
    Guarded c ({ s with kernel := r.1 }.setProc p r.2) := by
  obtain ⟨segment, -, hr⟩ := Option.bind_eq_some_iff.mp hr
  obtain ⟨t, ht, rfl⟩ := Option.map_eq_some_iff.mp hr
  have hset := ha p
  rw [hproc] at hset
  have hidle : ∀ j, j ≠ k → (s.kernel.view segment shm.semId k call server).calls j = .idle := by
    intro j hj
    simp only [Kernel.view, Function.update_of_ne hj]
  have hmove := step_lockMove hidle hcall ht
  simp only [Kernel.view, Function.update_self] at hmove
  obtain ⟨owner, hown, hbound⟩ := h
  have hle := hbound shm.semId hset.2
  have hin : (s.procs p).Inside ↔ call.Inside := by
    rw [hproc]
    exact Iff.rfl
  have hstore := s.kernel.store_lock_le segment shm.shmPtr shm.semId t
  have hcount : ∀ n, t.semLock ≤ n → ∀ id, s.kernel.semIds c.semKey = some id →
      (s.kernel.store segment shm.shmPtr shm.semId t).count id SEM_LOCK ≤ n := by
    intro n hn id hid
    rw [hset.2] at hid
    cases hid
    exact hstore.trans hn
  generalize t.semLock = lock at hmove hcount
  cases hmove with
  | keep hsame => exact Guarded.setProc hown (.keep (hsame.trans hin.symm)) (hcount _ hle)
  | enter hpos hafter =>
      have hfree : owner = none := by
        by_contra hne
        rw [if_neg hne] at hle
        omega
      refine Guarded.setProc hown (.enter hfree hafter) (hcount _ ?_)
      rw [if_pos hfree] at hle
      simp only [reduceCtorEq, if_false]
      omega
  | leave hbefore hout =>
      have howner : owner = some p := (hown p).mp (hin.mpr hbefore)
      refine Guarded.setProc hown (.leave (hin.mpr hbefore) hout) (hcount _ ?_)
      simp only [howner, reduceCtorEq, if_false] at hle
      simp only [if_true]
      omega

theorem Guarded.step (h : Guarded c s) (ha : Attached c s) {a : NetAction} (hcond : Unheld s a)
    (ht : netStep c uuid prepare ShmIpc.semId s a = some t) : Guarded c t := by
  obtain ⟨K, p, proc, hs, rfl⟩ := netStep_cases ht
  cases hs with
  | init p hproc =>
      refine h.setOutside rfl rfl ?_ id
      rcases hproc with hproc | ⟨shm, k, call, server, hproc, hfin⟩
      · rw [hproc]
        exact id
      · rw [hproc]
        exact Client.not_inside_of_finished hfin
  | attach p fresh ok pc hproc => exact h.attach ha hproc hcond
  | call p k kind msg shm j call server hproc hfin =>
      refine h.setOutside rfl rfl ?_ id
      rw [hproc]
      exact Client.not_inside_of_finished hfin
  | act p a shm k call server hproc hcall r hr => exact h.act ha hproc hcall hr

theorem reachable_guarded
    (h : (network c uuid prepare ShmIpc.semId (Absent c)).ReachableWhen Unheld s) :
    Attached c s ∧ Guarded c s := by
  refine System.ReachableWhen.invariant (S := network c uuid prepare ShmIpc.semId (Absent c))
    (I := fun s => Attached c s ∧ Guarded c s) ?_ ?_ h
  · intro s hinit
    obtain ⟨⟨-, hnone⟩, hprocs⟩ := hinit
    refine ⟨attached_of_detached hprocs, none, ?_, ?_⟩
    · intro p
      rw [hprocs]
      exact iff_of_false id (by simp)
    · intro id hid
      rw [hnone] at hid
      cases hid
  · intro s a t hi hcond ht
    obtain ⟨ha, hg⟩ := hi
    exact ⟨(ha.step ht).1, hg.step ha hcond ht⟩

-- With every semaphore operation on the channel's own set, two processes are
-- never inside at once, as long as no `SETVAL` comes while one is.
theorem inside_unique
    (h : (network c uuid prepare ShmIpc.semId (Absent c)).ReachableWhen Unheld s)
    {q : Party} (hp : (s.procs p).Inside) (hq : (s.procs q).Inside) : p = q := by
  obtain ⟨owner, hown, -⟩ := (reachable_guarded h).2
  exact hown.exclusive hp hq

end

def emptyKernel : Kernel :=
  { shmIds := fun _ => none, segments := fun _ => none, semIds := fun _ => none, sets := fun _ => none }

def emptyNet : Net := { kernel := emptyKernel, procs := fun _ => .detached }

-- A channel of 4096 bytes. The two keys of a channel differ in the file name.
def asrChannel : Channel :=
  { shmName := "asr", size := 4096, getkey := fun name => if name = "asr_shm" then 1 else 2 }

-- The four system calls of `init_shm_ipc`, with `fresh` the ids of new objects.
def initShmIpc (p : Party) (shmId semId : ℤ) : List NetAction :=
  [.init p, .attach p shmId true, .attach p shmId true, .attach p semId true, .attach p semId true]

theorem inside_unique_one_call : ∃ s,
    (network asrChannel plainId storeSize ShmIpc.semId (Absent asrChannel)).ReachableWhen Unheld s ∧
    (s.procs (.client 0)).Inside ∧ ∀ q, (s.procs q).Inside → q = .client 0 := by
  let actions : List NetAction := initShmIpc .server 0 0 ++ initShmIpc (.client 0) 0 0 ++
    [.call (.client 0) 0 .pst [], .act (.client 0) (.client 0)]
  obtain ⟨s, hs⟩ : ∃ s, (network asrChannel plainId storeSize ShmIpc.semId
      (Absent asrChannel)).run emptyNet actions = some s := ⟨_, rfl⟩
  have hmeets : (network asrChannel plainId storeSize ShmIpc.semId (Absent asrChannel)).Meets
      Unheld emptyNet actions := by
    refine ⟨trivial, nofun, nofun, nofun, ?_, trivial, nofun, nofun, nofun, ?_, trivial, trivial,
      trivial⟩
    · intro _ q
      cases q <;> exact id
    · intro _ q
      by_cases hq : q = .client 0
      · subst hq
        exact id
      · rw [Net.setProc_of_ne hq, Net.setProc_of_ne hq, Net.setProc_of_ne hq,
          Net.setProc_of_ne hq]
        cases q <;> exact id
  have hinit : (network asrChannel plainId storeSize ShmIpc.semId (Absent asrChannel)).init
      emptyNet := ⟨⟨rfl, rfl⟩, rfl⟩
  have hreach := System.ReachableWhen.run (.init hinit) hmeets hs
  have hin : (s.procs (.client 0)).Inside := by
    cases hs
    trivial
  exact ⟨s, hreach, hin, fun q hq => inside_unique hreach hq hin⟩

-- The second client attaches while the first is inside. Its `SETVAL` opens the
-- lock, and it takes it.
def lateClient : List NetAction :=
  initShmIpc .server 0 0 ++ initShmIpc (.client 0) 0 0 ++
    [.call (.client 0) 0 .pst [], .act (.client 0) (.client 0)] ++ initShmIpc (.client 1) 0 0 ++
    [.call (.client 1) 1 .pst [], .act (.client 1) (.client 1)]

theorem inside_twice : ¬∀ (c : Channel) (uuid : ℕ → Bytes) (prepare : Prepare) (s : Net)
    (p q : Party), (network c uuid prepare ShmIpc.semId (Absent c)).Reachable s →
    (s.procs p).Inside → (s.procs q).Inside → p = q := by
  intro h
  obtain ⟨s, hs⟩ : ∃ s, (network asrChannel plainId storeSize ShmIpc.semId
      (Absent asrChannel)).run emptyNet lateClient = some s := ⟨_, rfl⟩
  have hinit : (network asrChannel plainId storeSize ShmIpc.semId (Absent asrChannel)).init
      emptyNet := ⟨⟨rfl, rfl⟩, rfl⟩
  have hreach := System.Reachable.run (.init hinit) hs
  have heq : Party.client 0 = .client 1 := by
    cases hs
    exact h _ _ _ _ (.client 0) (.client 1) hreach trivial trivial
  cases heq

section

variable {c : Channel} {uuid : ℕ → Bytes} {prepare : Prepare} {start : Kernel → Prop} {s t : Net}

-- An operation is on the own set, and leaves the others alone, exactly when the
-- two ids are the same.
theorem semOp_ownSet_iff {a : NetAction} {op : SemOp}
    (ht : netStep c uuid prepare ShmIpc.shmId s a = some t)
    (hop : semOp ShmIpc.shmId s t a = some op) : op.OwnSet ↔ op.shm.shmId = op.shm.semId := by
  obtain ⟨K, p, proc, hs, rfl⟩ := netStep_cases ht
  cases hs with
  | init | attach | call => cases hop
  | act p a shm k call server hproc hcall r hr =>
      simp only [semOp, hproc] at hop
      obtain ⟨num, -, rfl⟩ := Option.map_eq_some_iff.mp hop
      obtain ⟨-, -, hsets, -⟩ := act_frame hr
      constructor
      · intro h
        exact h.1
      · intro h
        refine ⟨h, ?_⟩
        intro id hid
        exact hsets id (by rw [h]; exact hid)

-- The ids of the operation's channel are those that the kernel has registered.
theorem semOp_registered {used : ShmIpc → ℤ} {a : NetAction} {op : SemOp} (h : Attached c s)
    (hop : semOp used s t a = some op) :
    s.kernel.shmIds c.shmKey = some op.shm.shmId ∧ s.kernel.semIds c.semKey = some op.shm.semId := by
  cases a with
  | init | attach | call => cases hop
  | act p a =>
      simp only [semOp] at hop
      split at hop
      next shm k call server hproc =>
        obtain ⟨num, -, rfl⟩ := Option.map_eq_some_iff.mp hop
        have hp := h p
        rw [hproc] at hp
        exact hp
      next => cases hop

theorem Attached.run {used : ShmIpc → ℤ} {actions : List NetAction} (h : Attached c s)
    (hr : (network c uuid prepare used start).run s actions = some t) :
    Grows c s.kernel t.kernel := by
  induction actions generalizing s with
  | nil =>
      cases hr
      exact .of_eq rfl rfl
  | cons a rest ih =>
      obtain ⟨u, hu, hr⟩ := Option.bind_eq_some_iff.mp hr
      obtain ⟨hau, hg⟩ := h.step hu
      exact hg.trans (ih hau hr)

theorem semOps_registered {actions : List NetAction} {op : SemOp} (h : Attached c s)
    (hr : (network c uuid prepare ShmIpc.shmId start).run s actions = some t)
    (hop : op ∈ semOps (network c uuid prepare ShmIpc.shmId start) ShmIpc.shmId s actions) :
    (t.kernel.shmIds c.shmKey = some op.shm.shmId ∧ t.kernel.semIds c.semKey = some op.shm.semId) ∧
      (op.OwnSet ↔ op.shm.shmId = op.shm.semId) := by
  induction actions generalizing s with
  | nil => cases hop
  | cons a rest ih =>
      obtain ⟨u, hu, hr⟩ := Option.bind_eq_some_iff.mp hr
      obtain ⟨hau, hg⟩ := h.step hu
      simp only [semOps, hu, List.mem_append, Option.mem_toList] at hop
      rcases hop with hop | hop
      · obtain ⟨hshm, hsem⟩ := semOp_registered h hop
        have hgrow := hg.trans (hau.run hr)
        exact ⟨⟨hgrow.1 _ hshm, hgrow.2 _ hsem⟩, semOp_ownSet_iff hu hop⟩
      · exact ih hau hr hop

-- The calls pass `shm_id` to `semp` and `semv`. In a run from any kernel that has
-- an operation at all, they are all on the own set exactly when the kernel has
-- given the segment and the set one id.
theorem semOps_ownSet_iff {actions : List NetAction}
    (hinit : (network c uuid prepare ShmIpc.shmId fun _ => True).init s)
    (hr : (network c uuid prepare ShmIpc.shmId fun _ => True).run s actions = some t) :
    (∀ op ∈ semOps (network c uuid prepare ShmIpc.shmId fun _ => True) ShmIpc.shmId s actions,
      op.OwnSet) ↔
    semOps (network c uuid prepare ShmIpc.shmId fun _ => True) ShmIpc.shmId s actions = [] ∨
      t.kernel.shmIds c.shmKey = t.kernel.semIds c.semKey := by
  have ha : Attached c s := attached_of_detached hinit.2
  constructor
  · intro h
    cases hops : semOps (network c uuid prepare ShmIpc.shmId fun _ => True) ShmIpc.shmId s actions with
    | nil => exact .inl rfl
    | cons op rest =>
        have hmem : op ∈ semOps (network c uuid prepare ShmIpc.shmId fun _ => True)
            ShmIpc.shmId s actions := by
          rw [hops]
          exact List.mem_cons_self
        obtain ⟨⟨hshm, hsem⟩, hiff⟩ := semOps_registered ha hr hmem
        have hids := hiff.mp (h op hmem)
        rw [hshm, hsem, hids]
        exact .inr rfl
  · intro h op hop
    obtain ⟨⟨hshm, hsem⟩, hiff⟩ := semOps_registered ha hr hop
    rcases h with h | h
    · rw [h] at hop
      cases hop
    · rw [hshm, hsem] at h
      exact hiff.mpr (Option.some.inj h)

end

-- The first server of a machine: both ids are 0.
theorem semOps_ownSet_first_boot : ∃ t,
    (network asrChannel plainId storeSize ShmIpc.shmId fun _ => True).run emptyNet
      (initShmIpc .server 0 0 ++ initShmIpc (.client 0) 0 0 ++
        [.call (.client 0) 0 .pst [], .act (.client 0) (.client 0)]) = some t ∧
    ∀ op ∈ semOps (network asrChannel plainId storeSize ShmIpc.shmId fun _ => True) ShmIpc.shmId
      emptyNet (initShmIpc .server 0 0 ++ initShmIpc (.client 0) 0 0 ++
        [.call (.client 0) 0 .pst [], .act (.client 0) (.client 0)]), op.OwnSet :=
  ⟨_, rfl, (semOps_ownSet_iff ⟨trivial, rfl⟩ rfl).mpr (.inr rfl)⟩

-- Another program has the set 5, and the kernel gives the id 5 to the segment.
def foreignNet : Net :=
  { kernel := { emptyKernel with sets := Function.update (fun _ => none) 5 (some [1, 0, 0]) }
    procs := fun _ => .detached }

def foreignLock : List NetAction :=
  initShmIpc .server 5 7 ++ initShmIpc (.client 0) 5 7 ++
    [.call (.client 0) 0 .pst [], .act (.client 0) (.client 0)]

-- The client takes the lock of the other program, and the count goes from 1 to 0.
theorem semOps_foreign_set : ¬∀ (c : Channel) (uuid : ℕ → Bytes) (prepare : Prepare) (s t : Net)
    (actions : List NetAction), (network c uuid prepare ShmIpc.shmId fun _ => True).init s →
    (network c uuid prepare ShmIpc.shmId fun _ => True).run s actions = some t →
    ∀ op ∈ semOps (network c uuid prepare ShmIpc.shmId fun _ => True) ShmIpc.shmId s actions,
      op.OwnSet := by
  intro h
  have hown := h asrChannel plainId storeSize foreignNet _ foreignLock ⟨trivial, rfl⟩ rfl _
    (List.mem_cons_self ..)
  have hsets := hown.2 5 (by decide)
  cases hsets

end AsrServiceProxy.Ipc
