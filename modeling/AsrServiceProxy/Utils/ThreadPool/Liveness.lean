import AsrServiceProxy.Lib.Transition.Rest
import AsrServiceProxy.Utils.ThreadPool.Theorems

-- A pool with a worker comes to rest when nothing new is asked of it, and has then run
-- every task that it accepted: no wake-up is lost.
namespace AsrServiceProxy.ThreadPool

open Counting Transition

-- What the threads do by themselves. Calls of `enqueue`, the start of the destructor and
-- spurious wake-ups come from outside.
def Action.isInternal : Action → Bool
  | .enqueue _ | .destroy | .workerWake _ => false
  | _ => true

-- What a step of the pool can do, with what holds when it does it.
inductive Move (s : State) : State → Prop
  | lock {i : ℕ} : s.workers[i]? = some .lock → s.queueMutex = none →
      Move s ({ s with queueMutex := some (.worker i) }.setWorker i .test)
  | wait {i : ℕ} : s.workers[i]? = some .test → s.stop = false → s.tasks = [] →
      Move s ({ s with queueMutex := none }.setWorker i .waiting)
  | leave {i : ℕ} : s.workers[i]? = some .test → s.tasks = [] →
      Move s ({ s with queueMutex := none }.setWorker i .exited)
  | take {i task : ℕ} {rest : List ℕ} : s.workers[i]? = some .test → s.tasks = task :: rest →
      Move s ({ s with queueMutex := none, tasks := rest, taken := s.taken ++ [task] }.setWorker i
        (.running task))
  | ran {i task : ℕ} : s.workers[i]? = some (.running task) →
      Move s ({ s with ran := s.ran ++ [task] }.setWorker i .lock)
  | enqueueLock {c : ℕ} : s.callers c = .lock → s.queueMutex = none →
      Move s ({ s with queueMutex := some (.caller c) }.setCaller c .locked)
  | refuse {c : ℕ} (what : String) : s.callers c = .locked →
      Move s ({ s with queueMutex := none }.setCaller c (.threw what))
  | accept {c : ℕ} : s.callers c = .locked → s.stop = false →
      Move s ({ s with
        queueMutex := none
        tasks := s.tasks ++ [s.accepted.length]
        accepted := s.accepted ++ [s.accepted.length] }.setCaller c .notify)
  | notifyNobody {c : ℕ} : s.callers c = .notify → .waiting ∉ s.workers →
      Move s (s.setCaller c .idle)
  | notifyWorker {c i : ℕ} : s.callers c = .notify → s.workers[i]? = some .waiting →
      Move s ((s.setWorker i .lock).setCaller c .idle)
  | destroyLock : s.destructor = .lock → s.queueMutex = none →
      Move s { s with destructor := .locked, queueMutex := some .destructor }
  | destroyBody : s.destructor = .locked →
      Move s { s with destructor := .notify, queueMutex := none, stop := true }
  | notifyAll : s.destructor = .notify →
      Move s { s with
        destructor := .join 0
        workers := s.workers.map fun w => if w = .waiting then .lock else w }
  | join {i : ℕ} : s.destructor = .join i → i ≠ s.workers.length →
      s.workers[i]? = some .exited → Move s { s with destructor := .join (i + 1) }
  | joined : s.destructor = .join s.workers.length → Move s { s with destructor := .done }

-- What is asked of it from outside.
inductive Ask (s : State) : State → Prop
  | wake {i : ℕ} : s.workers[i]? = some .waiting → Ask s (s.setWorker i .lock)
  | enqueue {c : ℕ} : s.callers c ≠ .locked → s.callers c ≠ .notify →
      Ask s (s.setCaller c .lock)
  | destroy : s.destructor = .idle → Ask s { s with destructor := .lock }

section

variable {threads : ℕ} {queueSize : ℤ} {s t : State}

theorem move_of_workerTest {i : ℕ} (hi : s.workers[i]? = some .test)
    (ht : workerTest s i = some t) : Move s t := by
  unfold workerTest at ht
  dsimp only at ht
  split_ifs at ht with hwake hleave
  · cases ht
    exact .leave hi hleave.2
  · cases hq : s.tasks with
    | nil => simp [hq] at ht
    | cons task rest =>
        simp only [hq, Option.some.injEq] at ht
        subst ht
        exact .take hi hq
  · cases ht
    rw [not_or, not_not] at hwake
    exact .wait hi (by simpa using hwake.1) hwake.2

theorem move_enqueueBody {c : ℕ} (hc : s.callers c = .locked) : Move s (enqueueBody s c) := by
  unfold enqueueBody
  dsimp only
  split_ifs with hstop hfull
  · exact .refuse _ hc
  · exact .accept hc (by simpa using hstop)
  · exact .refuse _ hc

theorem stepWorker_cases {a : Action} (ht : stepWorker s a = some t) :
    (a.isInternal = true ∧ Move s t) ∨ (a.isInternal = false ∧ Ask s t) := by
  cases a with
  | workerLock i =>
      simp only [stepWorker] at ht
      split_ifs at ht with hc
      cases ht
      exact .inl ⟨rfl, .lock hc.1 hc.2⟩
  | workerTest i =>
      simp only [stepWorker] at ht
      split_ifs at ht with hc
      exact .inl ⟨rfl, move_of_workerTest hc ht⟩
  | workerWake i =>
      simp only [stepWorker] at ht
      split_ifs at ht with hc
      cases ht
      exact .inr ⟨rfl, .wake hc⟩
  | workerRan i =>
      simp only [stepWorker] at ht
      split at ht
      next task hi =>
        cases ht
        exact .inl ⟨rfl, .ran hi⟩
      next => cases ht
  | _ => cases ht

theorem stepCaller_cases {a : Action} (ht : stepCaller s a = some t) :
    (a.isInternal = true ∧ Move s t) ∨ (a.isInternal = false ∧ Ask s t) := by
  cases a with
  | enqueue c =>
      simp only [stepCaller] at ht
      split at ht
      next hc =>
        cases ht
        exact .inr ⟨rfl, .enqueue (by simp [hc]) (by simp [hc])⟩
      next hc =>
        cases ht
        exact .inr ⟨rfl, .enqueue (by simp [hc]) (by simp [hc])⟩
      next => cases ht
  | enqueueLock c =>
      simp only [stepCaller] at ht
      split_ifs at ht with hc
      cases ht
      exact .inl ⟨rfl, .enqueueLock hc.1 hc.2⟩
  | enqueueBody c =>
      simp only [stepCaller] at ht
      split_ifs at ht with hc
      cases ht
      exact .inl ⟨rfl, move_enqueueBody hc⟩
  | notifyOne c woken =>
      simp only [stepCaller] at ht
      cases woken with
      | none =>
          dsimp only at ht
          split_ifs at ht with hc hw
          cases ht
          exact .inl ⟨rfl, .notifyNobody hc hw⟩
      | some i =>
          dsimp only at ht
          split_ifs at ht with hc hi
          cases ht
          exact .inl ⟨rfl, .notifyWorker hc hi⟩
  | _ => cases ht

theorem stepDestructor_cases {a : Action} (ht : stepDestructor s a = some t) :
    (a.isInternal = true ∧ Move s t) ∨ (a.isInternal = false ∧ Ask s t) := by
  cases a with
  | destroy =>
      simp only [stepDestructor] at ht
      split_ifs at ht with hd
      cases ht
      exact .inr ⟨rfl, .destroy hd⟩
  | destroyLock =>
      simp only [stepDestructor] at ht
      split_ifs at ht with hd
      cases ht
      exact .inl ⟨rfl, .destroyLock hd.1 hd.2⟩
  | destroyBody =>
      simp only [stepDestructor] at ht
      split_ifs at ht with hd
      cases ht
      exact .inl ⟨rfl, .destroyBody hd⟩
  | notifyAll =>
      simp only [stepDestructor] at ht
      split_ifs at ht with hd
      cases ht
      exact .inl ⟨rfl, .notifyAll hd⟩
  | join =>
      simp only [stepDestructor] at ht
      split at ht
      next i hd =>
        split_ifs at ht with hall hi
        · cases ht
          rw [hall] at hd
          exact .inl ⟨rfl, .joined hd⟩
        · cases ht
          exact .inl ⟨rfl, .join hd hall hi⟩
      next => cases ht
  | _ => cases ht

theorem move_or_ask {a : Action} (ht : step s a = some t) :
    (a.isInternal = true ∧ Move s t) ∨ (a.isInternal = false ∧ Ask s t) := by
  rcases step_cases ht with hw | hc | hd
  · exact stepWorker_cases hw
  · exact stepCaller_cases hc
  · exact stepDestructor_cases hd

end

-- A worker that looks at the queue again before it waits.
def Worker.Awake : Worker → Prop
  | .lock | .test | .running _ => True
  | .waiting | .exited => False

def Destructor.Stopped : Destructor → Prop
  | .notify | .join _ | .done => True
  | .idle | .lock | .locked => False

def Destructor.Woken : Destructor → Prop
  | .join _ | .done => True
  | .idle | .lock | .locked | .notify => False

theorem Destructor.Woken.stopped {d : Destructor} (h : d.Woken) : d.Stopped := by
  cases d <;> trivial

-- The thread is in its locked block.
def State.Holds (s : State) : Holder → Prop
  | .worker i => s.workers[i]? = some .test
  | .caller c => s.callers c = .locked
  | .destructor => s.destructor = .locked

-- As long as a task is queued, some worker will come to look for it.
structure Lively (s : State) : Prop where
  held : ∀ holder, s.queueMutex = some holder → s.Holds holder
  awake : s.tasks ≠ [] → (∃ w ∈ s.workers, w.Awake) ∨ ∃ c, s.callers c = .notify
  stopped : s.destructor.Stopped → s.stop = true
  woken : s.destructor.Woken → .waiting ∉ s.workers
  joining : ∀ i, s.destructor = .join i → i ≤ s.workers.length

theorem initial_lively (threads : ℕ) (queueSize : ℤ) : Lively (initial threads queueSize) where
  held _ h := by cases h
  awake h := absurd rfl h
  stopped h := h.elim
  woken h := h.elim
  joining _ h := by cases h

section

variable {threads : ℕ} {queueSize : ℤ} {s t : State}

theorem Lively.release (hl : Lively s) : Lively { s with queueMutex := none } :=
  { hl with held := fun _ h => by cases h }

theorem Lively.hold (hl : Lively s) (holder : Holder) (h : s.Holds holder) :
    Lively { s with queueMutex := some holder } where
  held other ho := by
    cases ho
    cases holder <;> exact h
  awake := hl.awake
  stopped := hl.stopped
  woken := hl.woken
  joining := hl.joining

-- The queue and what is recorded of it change while a worker is awake.
theorem Lively.setTasks (hl : Lively s) (tasks accepted taken ran : List ℕ)
    (hawake : tasks ≠ [] → (∃ w ∈ s.workers, w.Awake) ∨ ∃ c, s.callers c = .notify) :
    Lively { s with tasks := tasks, accepted := accepted, taken := taken, ran := ran } where
  held holder h := by
    have hh := hl.held holder h
    cases holder <;> exact hh
  awake := hawake
  stopped := hl.stopped
  woken := hl.woken
  joining := hl.joining

theorem Lively.setWorker (hl : Lively s) {i : ℕ} {old new : Worker}
    (hi : s.workers[i]? = some old) (hold : old = .test → s.queueMutex = none)
    (hnew : new.Awake ∨ s.tasks = []) (hwait : new = .waiting → ¬ s.destructor.Woken) :
    Lively (s.setWorker i new) where
  held holder h := by
    have hh := hl.held holder h
    cases holder with
    | worker j =>
        have hij : i ≠ j := by
          rintro rfl
          rw [State.Holds, hi, Option.some.injEq] at hh
          have hnone := hold hh
          simp only [State.setWorker, hnone] at h
          cases h
        simp only [State.Holds, State.setWorker]
        rw [List.getElem?_set_ne hij]
        exact hh
    | caller c => exact hh
    | destructor => exact hh
  awake h := by
    have hlt : i < s.workers.length := (List.getElem?_eq_some_iff.mp hi).1
    rcases hnew with hnew | hnone
    · exact .inl ⟨new, List.mem_set hlt new, hnew⟩
    · exact absurd hnone h
  stopped := hl.stopped
  woken h hw := by
    rcases List.mem_or_eq_of_mem_set hw with hmem | heq
    · exact hl.woken h hmem
    · exact hwait heq.symm h
  joining j h := by
    have hj := hl.joining j h
    simp only [State.setWorker, List.length_set]
    exact hj

theorem Lively.setCaller (hl : Lively s) {c : ℕ} {new : Caller}
    (hold : s.callers c = .locked → s.queueMutex = none)
    (hawake : s.callers c = .notify → s.tasks ≠ [] → ∃ w ∈ s.workers, w.Awake) :
    Lively (s.setCaller c new) where
  held holder h := by
    have hh := hl.held holder h
    cases holder with
    | worker j => exact hh
    | caller other =>
        have hne : other ≠ c := by
          rintro rfl
          have hnone := hold hh
          simp only [State.setCaller, hnone] at h
          cases h
        simp only [State.Holds, State.setCaller]
        rw [Function.update_of_ne hne]
        exact hh
    | destructor => exact hh
  awake h := by
    by_cases hc : s.callers c = .notify
    · exact .inl (hawake hc h)
    · rcases hl.awake h with hw | ⟨other, ho⟩
      · exact .inl hw
      · have hne : other ≠ c := by
          rintro rfl
          exact hc ho
        refine .inr ⟨other, ?_⟩
        simp only [State.setCaller]
        rw [Function.update_of_ne hne]
        exact ho
  stopped := hl.stopped
  woken := hl.woken
  joining := hl.joining

-- The destructor moves on without a change of the workers.
theorem Lively.setDestructor (hl : Lively s) {d : Destructor}
    (hold : s.destructor = .locked → s.queueMutex = none) (hstop : d.Stopped → s.stop = true)
    (hwoken : d.Woken → s.destructor.Woken) (hjoin : ∀ i, d = .join i → i ≤ s.workers.length) :
    Lively { s with destructor := d } where
  held holder h := by
    have hh := hl.held holder h
    cases holder with
    | worker i => exact hh
    | caller c => exact hh
    | destructor =>
        have hnone := hold hh
        simp only [hnone] at h
        cases h
  awake := hl.awake
  stopped := hstop
  woken h := hl.woken (hwoken h)
  joining := hjoin

end

section

variable {threads : ℕ} {queueSize : ℤ} {s t : State}

-- No worker waits, so the first one is awake or has left, and then nothing is queued.
theorem Valid.exists_awake (hthreads : 1 ≤ threads) (hv : Valid threads queueSize s)
    (hw : .waiting ∉ s.workers) (htasks : s.tasks ≠ []) : ∃ w ∈ s.workers, w.Awake := by
  have hlt : 0 < s.workers.length := by
    rw [hv.length]
    omega
  have hmem := List.getElem_mem hlt
  refine ⟨s.workers[0], hmem, ?_⟩
  have hget := List.getElem?_eq_getElem hlt
  cases hw0 : s.workers[0] with
  | lock => trivial
  | test => trivial
  | running task => trivial
  | waiting =>
      rw [hw0] at hmem
      exact absurd hmem hw
  | exited =>
      rw [hw0] at hget
      exact absurd (hv.exited 0 hget).2 htasks

theorem Lively.notifyAll (hl : Lively s) (hd : s.destructor = .notify) : Lively { s with
    destructor := .join 0
    workers := s.workers.map fun w => if w = .waiting then .lock else w } where
  held holder h := by
    have hh := hl.held holder h
    cases holder with
    | worker i =>
        simp only [State.Holds] at hh ⊢
        rw [List.getElem?_map, hh]
        rfl
    | caller c => exact hh
    | destructor =>
        rw [State.Holds, hd] at hh
        cases hh
  awake h := by
    rcases hl.awake h with ⟨w, hw, hawake⟩ | hc
    · refine .inl ⟨_, List.mem_map_of_mem hw, ?_⟩
      have hne : w ≠ .waiting := by
        rintro rfl
        exact hawake
      rw [if_neg hne]
      exact hawake
    · exact .inr hc
  stopped _ := hl.stopped (by rw [hd]; trivial)
  woken _ hw := by
    obtain ⟨w, _, heq⟩ := List.mem_map.mp hw
    split_ifs at heq with hwait
    exact hwait heq
  joining _ h := by
    cases h
    exact Nat.zero_le _

-- What a step of the pool keeps.
theorem Lively.move (hthreads : 1 ≤ threads) (hv : Valid threads queueSize s) (hl : Lively s)
    (hm : Move s t) : Lively t := by
  cases hm with
  | @lock i hi hfree =>
      have hset : Lively (s.setWorker i .test) :=
        hl.setWorker hi (by simp) (.inl trivial) (by simp)
      have hlt : i < s.workers.length := (List.getElem?_eq_some_iff.mp hi).1
      exact hset.hold (.worker i) (List.getElem?_set_self hlt)
  | @wait i hi hstop htasks =>
      have hrel := hl.release
      refine hrel.setWorker hi (fun _ => rfl) (.inr htasks) fun _ hwoken => ?_
      rw [hl.stopped hwoken.stopped] at hstop
      cases hstop
  | @leave i hi htasks => exact hl.release.setWorker hi (fun _ => rfl) (.inr htasks) (by simp)
  | @take i task rest hi htasks =>
      have hqueue := hl.release.setTasks rest s.accepted (s.taken ++ [task]) s.ran
        fun _ => .inl ⟨.test, List.mem_of_getElem? hi, trivial⟩
      exact hqueue.setWorker hi (fun _ => rfl) (.inl trivial) (by simp)
  | @ran i task hi =>
      have hran := hl.setTasks s.tasks s.accepted s.taken (s.ran ++ [task]) hl.awake
      exact hran.setWorker hi (by simp) (.inl trivial) (by simp)
  | @enqueueLock c hc hfree =>
      have hset : Lively (s.setCaller c .locked) := hl.setCaller (by simp [hc]) (by simp [hc])
      exact hset.hold (.caller c) (Function.update_self c _ _)
  | @refuse c what hc => exact hl.release.setCaller (fun _ => rfl) (by simp [hc])
  | @accept c hc hstop =>
      have hset : Lively ({ s with queueMutex := none }.setCaller c .notify) :=
        hl.release.setCaller (fun _ => rfl) (by simp [hc])
      exact hset.setTasks (s.tasks ++ [s.accepted.length]) (s.accepted ++ [s.accepted.length])
        s.taken s.ran fun _ => .inr ⟨c, Function.update_self c _ _⟩
  | @notifyNobody c hc hw =>
      exact hl.setCaller (by simp [hc]) fun _ htasks => hv.exists_awake hthreads hw htasks
  | @notifyWorker c i hc hi =>
      have hlt : i < s.workers.length := (List.getElem?_eq_some_iff.mp hi).1
      have hset : Lively (s.setWorker i .lock) :=
        hl.setWorker hi (by simp) (.inl trivial) (by simp)
      refine hset.setCaller ?_ fun _ _ => ⟨.lock, List.mem_set hlt .lock, trivial⟩
      simp [State.setWorker, hc]
  | destroyLock hd hfree =>
      have hset : Lively { s with destructor := .locked } :=
        hl.setDestructor (by simp [hd]) (fun h => h.elim) (fun h => h.elim) (by simp)
      exact hset.hold .destructor rfl
  | destroyBody hd =>
      have hstop : Lively { s with queueMutex := none, stop := true } :=
        { hl.release with stopped := fun _ => rfl }
      exact hstop.setDestructor (fun _ => rfl) (fun _ => rfl) (fun h => h.elim) (by simp)
  | notifyAll hd => exact hl.notifyAll hd
  | @join i hd hne hi =>
      have hlt : i < s.workers.length := (List.getElem?_eq_some_iff.mp hi).1
      refine hl.setDestructor (by simp [hd]) (fun _ => ?_) (fun _ => ?_) fun j hj => ?_
      · exact hl.stopped (by rw [hd]; trivial)
      · rw [hd]
        trivial
      · cases hj
        omega
  | joined hd =>
      refine hl.setDestructor (by simp [hd]) (fun _ => ?_) (fun _ => ?_) (by simp)
      · exact hl.stopped (by rw [hd]; trivial)
      · rw [hd]
        trivial

theorem Lively.ask (hl : Lively s) (ha : Ask s t) : Lively t := by
  cases ha with
  | wake hi => exact hl.setWorker hi (by simp) (.inl trivial) (by simp)
  | enqueue hlocked hnotify =>
      exact hl.setCaller (fun h => absurd h hlocked) fun h => absurd h hnotify
  | destroy hd =>
      exact hl.setDestructor (by simp [hd]) (fun h => h.elim) (fun h => h.elim) (by simp)

end

-- How many more steps a worker can take before it looks at the queue and finds it empty.
def Worker.rank : Worker → ℕ
  | .waiting | .exited => 0
  | .test => 1
  | .lock => 2
  | .running _ => 3

-- An accepted task costs three steps of a worker, and the notification two more.
def Caller.rank : Caller → ℕ
  | .idle | .threw _ => 0
  | .notify => 3
  | .locked => 7
  | .lock => 8

-- `notify_all` sends every worker back to the mutex.
def Destructor.rank (threads : ℕ) : Destructor → ℕ
  | .idle | .done => 0
  | .join i => threads - i + 1
  | .notify => 3 * threads + 2
  | .locked => 3 * threads + 3
  | .lock => 3 * threads + 4

-- The calls that are under way are among `busy`.
def State.rank (busy : Finset ℕ) (s : State) : ℕ :=
  total Worker.rank s.workers + 3 * s.tasks.length + ∑ c ∈ busy, (s.callers c).rank +
    s.destructor.rank s.workers.length

def State.Within (busy : Finset ℕ) (s : State) : Prop := ∀ c ∉ busy, s.callers c = .idle

section

variable {threads : ℕ} {queueSize : ℤ} {s t : State} {busy : Finset ℕ}

theorem State.Within.mem (hb : s.Within busy) {c : ℕ} (hc : s.callers c ≠ .idle) : c ∈ busy := by
  by_contra hn
  exact hc (hb c hn)

theorem State.Within.setCaller (hb : s.Within busy) {c : ℕ} (hc : c ∈ busy) (new : Caller) :
    (s.setCaller c new).Within busy := by
  intro other ho
  have hne : other ≠ c := by
    rintro rfl
    exact ho hc
  simp only [State.setCaller]
  rw [Function.update_of_ne hne]
  exact hb other ho

theorem rank_setWorker (busy : Finset ℕ) {i : ℕ} {old : Worker} (new : Worker)
    (hi : s.workers[i]? = some old) :
    (s.setWorker i new).rank busy + old.rank = s.rank busy + new.rank := by
  have hset := total_set Worker.rank s.workers i old new hi
  simp only [State.rank, State.setWorker, List.length_set]
  omega

theorem rank_setCaller {c : ℕ} (new : Caller) (hc : c ∈ busy) :
    (s.setCaller c new).rank busy + (s.callers c).rank = s.rank busy + new.rank := by
  have hset := sum_update_mem Caller.rank s.callers hc new
  simp only [State.rank, State.setCaller]
  omega

theorem total_notified (workers : List Worker) :
    total Worker.rank (workers.map fun w => if w = .waiting then .lock else w) ≤
      total Worker.rank workers + 2 * workers.length := by
  induction workers with
  | nil => simp
  | cons w rest ih =>
      simp only [List.map_cons, total_cons, List.length_cons]
      by_cases hw : w = .waiting
      · simp only [hw, if_pos, Worker.rank]
        omega
      · rw [if_neg hw]
        omega

-- Every step of the pool itself brings it nearer to rest.
theorem rank_lt (hl : Lively s) (hb : s.Within busy) (hm : Move s t) :
    t.Within busy ∧ t.rank busy < s.rank busy := by
  cases hm with
  | lock hi hfree =>
      have hrank := rank_setWorker busy .test hi
      simp only [Worker.rank] at hrank
      refine ⟨hb, ?_⟩
      simp only [State.rank, State.setWorker] at hrank ⊢
      omega
  | wait hi hstop htasks =>
      have hrank := rank_setWorker busy .waiting hi
      refine ⟨hb, ?_⟩
      simp only [State.rank, State.setWorker, Worker.rank] at hrank ⊢
      omega
  | leave hi htasks =>
      have hrank := rank_setWorker busy .exited hi
      refine ⟨hb, ?_⟩
      simp only [State.rank, State.setWorker, Worker.rank] at hrank ⊢
      omega
  | @take i task rest hi htasks =>
      have hrank := rank_setWorker busy (.running task) hi
      refine ⟨hb, ?_⟩
      simp only [State.rank, State.setWorker, Worker.rank, htasks, List.length_cons] at hrank ⊢
      omega
  | @ran i task hi =>
      have hrank := rank_setWorker busy .lock hi
      refine ⟨hb, ?_⟩
      simp only [State.rank, State.setWorker, Worker.rank] at hrank ⊢
      omega
  | @enqueueLock c hc hfree =>
      have hmem := hb.mem (c := c) (by simp [hc])
      have hrank := rank_setCaller (s := s) .locked hmem
      refine ⟨hb.setCaller hmem .locked, ?_⟩
      simp only [State.rank, State.setCaller, hc, Caller.rank] at hrank ⊢
      omega
  | @refuse c what hc =>
      have hmem := hb.mem (c := c) (by simp [hc])
      have hrank := rank_setCaller (s := s) (.threw what) hmem
      refine ⟨hb.setCaller hmem (.threw what), ?_⟩
      simp only [State.rank, State.setCaller, hc, Caller.rank] at hrank ⊢
      omega
  | @accept c hc hstop =>
      have hmem := hb.mem (c := c) (by simp [hc])
      have hrank := rank_setCaller (s := s) .notify hmem
      refine ⟨hb.setCaller hmem .notify, ?_⟩
      simp only [State.rank, State.setCaller, hc, Caller.rank, List.length_append,
        List.length_singleton] at hrank ⊢
      omega
  | @notifyNobody c hc hw =>
      have hmem := hb.mem (c := c) (by simp [hc])
      have hrank := rank_setCaller (s := s) .idle hmem
      refine ⟨hb.setCaller hmem .idle, ?_⟩
      simp only [hc, Caller.rank] at hrank
      omega
  | @notifyWorker c i hc hi =>
      have hmem := hb.mem (c := c) (by simp [hc])
      have hworker := rank_setWorker busy .lock hi
      have hrank := rank_setCaller (s := s.setWorker i .lock) .idle hmem
      have hsame : (s.setWorker i .lock).callers c = .notify := hc
      refine ⟨hb.setCaller hmem .idle, ?_⟩
      simp only [hsame, Caller.rank, Worker.rank] at hrank hworker
      omega
  | destroyLock hd hfree =>
      refine ⟨hb, ?_⟩
      simp only [State.rank, hd, Destructor.rank]
      omega
  | destroyBody hd =>
      refine ⟨hb, ?_⟩
      simp only [State.rank, hd, Destructor.rank]
      omega
  | notifyAll hd =>
      have htotal := total_notified s.workers
      refine ⟨hb, ?_⟩
      simp only [State.rank, hd, Destructor.rank, List.length_map]
      omega
  | @join i hd hne hi =>
      have hle := hl.joining i hd
      refine ⟨hb, ?_⟩
      simp only [State.rank, hd, Destructor.rank]
      omega
  | joined hd =>
      refine ⟨hb, ?_⟩
      simp only [State.rank, hd, Destructor.rank]
      omega

end

section

variable {threads : ℕ} {queueSize : ℤ} {s t : State} {busy : Finset ℕ}

theorem State.Within.ask (hb : s.Within busy) (ha : Ask s t) : ∃ larger, t.Within larger := by
  cases ha with
  | wake hi => exact ⟨busy, hb⟩
  | @enqueue c hlocked hnotify =>
      have hinsert : s.Within (insert c busy) := by
        intro other ho
        exact hb other fun hmem => ho (Finset.mem_insert_of_mem hmem)
      exact ⟨insert c busy, hinsert.setCaller (Finset.mem_insert_self c busy) .lock⟩
  | destroy hd => exact ⟨busy, hb⟩

theorem reachable_lively (hthreads : 1 ≤ threads)
    (h : (system threads queueSize).Reachable s) :
    Valid threads queueSize s ∧ Lively s ∧ ∃ busy, s.Within busy := by
  refine System.Reachable.invariant (S := system threads queueSize)
    (I := fun s => Valid threads queueSize s ∧ Lively s ∧ ∃ busy, s.Within busy) ?_ ?_ h
  · rintro _ rfl
    exact ⟨initial_valid threads queueSize, initial_lively threads queueSize, ∅,
      fun _ _ => rfl⟩
  · intro s a t hi hs
    obtain ⟨hv, hl, busy, hb⟩ := hi
    have hvt := hv.step hs
    rcases move_or_ask hs with ⟨_, hm⟩ | ⟨_, ha⟩
    · exact ⟨hvt, hl.move hthreads hv hm, busy, (rank_lt hl hb hm).1⟩
    · exact ⟨hvt, hl.ask ha, hb.ask ha⟩

theorem step_lowers (hthreads : 1 ≤ threads) (a : Action)
    (hi : Valid threads queueSize s ∧ Lively s ∧ s.Within busy) (ha : a.isInternal = true)
    (hs : step s a = some t) :
    (Valid threads queueSize t ∧ Lively t ∧ t.Within busy) ∧ t.rank busy < s.rank busy := by
  obtain ⟨hv, hl, hb⟩ := hi
  rcases move_or_ask hs with ⟨_, hm⟩ | ⟨hext, _⟩
  · have hrank := rank_lt hl hb hm
    exact ⟨⟨hv.step hs, hl.move hthreads hv hm, hrank.1⟩, hrank.2⟩
  · rw [ha] at hext
    cases hext

end

-- Nothing but a call, a spurious wake-up or the start of the destructor can happen.
abbrev Quiet (threads : ℕ) (queueSize : ℤ) (s : State) : Prop :=
  (system threads queueSize).Resting (fun a => a.isInternal = true) s

section

variable {threads : ℕ} {queueSize : ℤ} {s t : State}

theorem Quiet.stuck (hquiet : Quiet threads queueSize s) (a : Action)
    (ha : a.isInternal = true) :
    stepWorker s a = none ∧ stepCaller s a = none ∧ stepDestructor s a = none := by
  have hstep : step s a = none := hquiet a ha
  unfold step at hstep
  rw [Option.or_eq_none_iff, Option.or_eq_none_iff] at hstep
  exact and_assoc.mp hstep

-- A thread can always finish its locked block.
theorem exists_workerTest (s : State) (i : ℕ) : ∃ t, workerTest s i = some t := by
  unfold workerTest
  dsimp only
  cases htasks : s.tasks with
  | nil => by_cases hstop : s.stop <;> simp [hstop]
  | cons task rest => simp

theorem Quiet.not_test (hquiet : Quiet threads queueSize s) (i : ℕ) :
    s.workers[i]? ≠ some .test := by
  intro hi
  have hstep := (hquiet.stuck (.workerTest i) rfl).1
  obtain ⟨t, ht⟩ := exists_workerTest s i
  simp [stepWorker, hi, ht] at hstep

theorem Quiet.not_locked (hquiet : Quiet threads queueSize s) (c : ℕ) :
    s.callers c ≠ .locked := by
  intro hc
  have hstep := (hquiet.stuck (.enqueueBody c) rfl).2.1
  simp [stepCaller, hc] at hstep

theorem Quiet.destructor_ne_locked (hquiet : Quiet threads queueSize s) :
    s.destructor ≠ .locked := by
  intro hd
  have hstep := (hquiet.stuck .destroyBody rfl).2.2
  simp [stepDestructor, hd] at hstep

theorem Quiet.free (hquiet : Quiet threads queueSize s) (hl : Lively s) : s.queueMutex = none := by
  cases hm : s.queueMutex with
  | none => rfl
  | some holder =>
      have hh := hl.held holder hm
      cases holder with
      | worker i => exact absurd hh (hquiet.not_test i)
      | caller c => exact absurd hh (hquiet.not_locked c)
      | destructor => exact absurd hh hquiet.destructor_ne_locked

theorem Quiet.worker (hquiet : Quiet threads queueSize s) (hl : Lively s) {w : Worker}
    (hw : w ∈ s.workers) : w = .waiting ∨ w = .exited := by
  obtain ⟨i, hi⟩ := List.mem_iff_getElem?.mp hw
  cases w with
  | waiting => exact .inl rfl
  | exited => exact .inr rfl
  | lock =>
      have hstep := (hquiet.stuck (.workerLock i) rfl).1
      simp [stepWorker, hi, hquiet.free hl] at hstep
  | test => exact absurd hi (hquiet.not_test i)
  | running task =>
      have hstep := (hquiet.stuck (.workerRan i) rfl).1
      simp [stepWorker, hi] at hstep

theorem Quiet.caller (hquiet : Quiet threads queueSize s) (hl : Lively s) (c : ℕ) :
    s.callers c = .idle ∨ ∃ what, s.callers c = .threw what := by
  cases hc : s.callers c with
  | idle => exact .inl rfl
  | threw what => exact .inr ⟨what, rfl⟩
  | lock =>
      have hstep := (hquiet.stuck (.enqueueLock c) rfl).2.1
      simp [stepCaller, hc, hquiet.free hl] at hstep
  | locked => exact absurd hc (hquiet.not_locked c)
  | notify =>
      by_cases hw : .waiting ∈ s.workers
      · obtain ⟨i, hi⟩ := List.mem_iff_getElem?.mp hw
        have hstep := (hquiet.stuck (.notifyOne c (some i)) rfl).2.1
        simp [stepCaller, hc, hi] at hstep
      · have hstep := (hquiet.stuck (.notifyOne c none) rfl).2.1
        simp [stepCaller, hc, hw] at hstep

theorem Quiet.tasks (hquiet : Quiet threads queueSize s) (hl : Lively s) : s.tasks = [] := by
  by_contra htasks
  rcases hl.awake htasks with ⟨w, hw, hawake⟩ | ⟨c, hc⟩
  · rcases hquiet.worker hl hw with rfl | rfl
    · exact hawake
    · exact hawake
  · rcases hquiet.caller hl c with hidle | ⟨what, hthrew⟩
    · rw [hidle] at hc
      cases hc
    · rw [hthrew] at hc
      cases hc

theorem Quiet.destructor (hquiet : Quiet threads queueSize s) (hl : Lively s) :
    s.destructor = .idle ∨ s.destructor = .done := by
  cases hd : s.destructor with
  | idle => exact .inl rfl
  | done => exact .inr rfl
  | lock =>
      have hstep := (hquiet.stuck .destroyLock rfl).2.2
      simp [stepDestructor, hd, hquiet.free hl] at hstep
  | locked => exact absurd hd hquiet.destructor_ne_locked
  | notify =>
      have hstep := (hquiet.stuck .notifyAll rfl).2.2
      simp [stepDestructor, hd] at hstep
  | join i =>
      have hstep := (hquiet.stuck .join rfl).2.2
      have hle := hl.joining i hd
      by_cases hall : i = s.workers.length
      · simp [stepDestructor, hd, hall] at hstep
      · -- all workers were woken, so the one to be joined has left
        have hlt : i < s.workers.length := by omega
        have hmem := List.getElem_mem hlt
        have hget := List.getElem?_eq_getElem hlt
        rcases hquiet.worker hl hmem with hw | hw
        · rw [hw] at hmem
          exact absurd hmem (hl.woken (by rw [hd]; trivial))
        · rw [hw] at hget
          simp [stepDestructor, hd, hall, hget] at hstep

theorem Quiet.ran (hquiet : Quiet threads queueSize s) (hl : Lively s)
    (hv : Valid threads queueSize s) : s.ran.Perm s.accepted := by
  have htaken : s.accepted = s.taken := by
    have hs := hv.split
    rw [hquiet.tasks hl, List.append_nil] at hs
    exact hs
  rw [htaken, List.perm_iff_count]
  intro task
  have hidle : total (Worker.runs task) s.workers = 0 := by
    apply total_eq_zero
    intro w hw
    rcases hquiet.worker hl hw with rfl | rfl <;> rfl
  have hc := hv.counted task
  omega

theorem step_destructor {a : Action} (hd : s.destructor ≠ .idle) (hs : step s a = some t) :
    t.destructor ≠ .idle := by
  rcases move_or_ask hs with ⟨_, hm⟩ | ⟨_, ha⟩
  · cases hm <;> first | exact hd | simp
  · cases ha <;> first | exact hd | simp

theorem run_destructor {actions : List Action} (hd : s.destructor ≠ .idle)
    (hr : (system threads queueSize).run s actions = some t) : t.destructor ≠ .idle :=
  System.run_relation (S := system threads queueSize)
    (R := fun s t => s.destructor ≠ .idle → t.destructor ≠ .idle) (fun _ h => h)
    (fun _ _ _ hst htu h => htu (hst h)) (fun _ _ _ hst h => step_destructor h hst) hr hd

theorem step_accepted {a : Action} (hs : step s a = some t) : s.accepted <+: t.accepted := by
  rcases move_or_ask hs with ⟨_, hm⟩ | ⟨_, ha⟩
  · cases hm <;> first | exact List.prefix_rfl | exact List.prefix_append _ _
  · cases ha <;> exact List.prefix_rfl

theorem run_accepted {actions : List Action}
    (hr : (system threads queueSize).run s actions = some t) : s.accepted <+: t.accepted :=
  System.run_relation (S := system threads queueSize) (R := fun s t => s.accepted <+: t.accepted)
    (fun _ => List.prefix_rfl) (fun _ _ _ hst htu => hst.trans htu)
    (fun _ _ _ hst => step_accepted hst) hr

theorem pool_comes_to_rest (hthreads : 1 ≤ threads)
    (h : (system threads queueSize).Reachable s) :
    (system threads queueSize).Settles (fun a => a.isInternal = true) s ∧
    ∀ actions t, (system threads queueSize).run s actions = some t → Quiet threads queueSize t →
      t.tasks = [] ∧ s.accepted <+: t.accepted ∧ t.ran.Perm t.accepted ∧
      (∀ c, t.callers c = .idle ∨ ∃ what, t.callers c = .threw what) ∧
      (s.destructor ≠ .idle → t.destructor = .done ∧ ∀ w ∈ t.workers, w = .exited) := by
  obtain ⟨hv, hl, busy, hb⟩ := reachable_lively hthreads h
  constructor
  · exact System.Settles.of_rank (S := system threads queueSize)
      (fun _ a _ => step_lowers hthreads a) ⟨hv, hl, hb⟩
  · intro actions t hr hquiet
    have hreach : (system threads queueSize).Reachable t := System.Reachable.run h hr
    obtain ⟨hvt, hlt, _⟩ := reachable_lively hthreads hreach
    refine ⟨hquiet.tasks hlt, run_accepted hr, hquiet.ran hlt hvt, hquiet.caller hlt,
      fun hd => ?_⟩
    have hdone : t.destructor = .done :=
      (hquiet.destructor hlt).resolve_left (run_destructor hd hr)
    refine ⟨hdone, fun w hw => ?_⟩
    rcases hquiet.worker hlt hw with rfl | rfl
    · exact absurd hw (hlt.woken (by rw [hdone]; trivial))
    · rfl

end

-- One of two workers waits, two tasks have been accepted whose notifications are still to
-- come, a third one was refused, and the destructor is at the mutex.
private def asked : List Action :=
  [.workerLock 0, .workerTest 0, .enqueue 0, .enqueueLock 0, .enqueueBody 0, .enqueue 1,
    .enqueueLock 1, .enqueueBody 1, .enqueue 2, .enqueueLock 2, .enqueueBody 2, .destroy]

theorem pool_comes_to_rest_asked : ∃ s actions t, (system 2 2).run (initial 2 2) asked = some s ∧
    s.workers = [.waiting, .lock] ∧ s.callers 2 = .threw "task queue if full" ∧
    (system 2 2).run s actions = some t ∧ 0 ∈ t.ran ∧ 1 ∈ t.ran ∧ t.destructor = .done := by
  obtain ⟨s, hs⟩ : ∃ s, (system 2 2).run (initial 2 2) asked = some s := ⟨_, rfl⟩
  have hreach : (system 2 2).Reachable s := System.Reachable.run (.init rfl) hs
  have hrest := pool_comes_to_rest (by decide) hreach
  obtain ⟨actions, t, _, hr, hquiet⟩ := hrest.1.rests [] s (by simp) rfl
  obtain ⟨-, haccepted, hran, -, hdone⟩ := hrest.2 actions t hr hquiet
  have hmem : ∀ task ∈ s.accepted, task ∈ t.ran := fun task htask =>
    hran.mem_iff.mpr (haccepted.subset htask)
  refine ⟨s, actions, t, hs, ?_⟩
  cases hs
  exact ⟨rfl, rfl, hr, hmem 0 (by decide), hmem 1 (by decide), (hdone (by decide)).1⟩

end AsrServiceProxy.ThreadPool
