import AsrServiceProxy.Utils.ThreadPool

namespace AsrServiceProxy.ThreadPool

open Counting Transition

def Worker.runs (task : ℕ) : Worker → ℕ
  | .running t => if t = task then 1 else 0
  | _ => 0

-- A worker that neither runs a task nor has left its loop.
def Worker.Looping : Worker → Prop
  | .lock | .test | .waiting => True
  | .running _ | .exited => False

theorem Worker.Looping.runs_eq {w : Worker} (h : w.Looping) (task : ℕ) : w.runs task = 0 := by
  cases w <;> simp_all [Worker.Looping, Worker.runs]

theorem Worker.Looping.ne_exited {w : Worker} (h : w.Looping) : w ≠ .exited := by
  rintro rfl
  exact h

-- The number of workers that the destructor has joined.
def Destructor.joined (threads : ℕ) : Destructor → ℕ
  | .join i => i
  | .done => threads
  | _ => 0

structure Valid (threads : ℕ) (queueSize : ℤ) (s : State) : Prop where
  bound : s.queueSize = queueSize
  size : s.tasks.length ≤ (queueSize % 2 ^ 64).toNat
  split : s.accepted = s.taken ++ s.tasks
  numbered : s.accepted = List.range s.accepted.length
  counted : ∀ task, s.taken.count task = s.ran.count task + total (Worker.runs task) s.workers
  length : s.workers.length = threads
  exited : ∀ i : ℕ, s.workers[i]? = some Worker.exited → s.stop = true ∧ s.tasks = []
  joined : ∀ i : ℕ, i < s.destructor.joined threads → s.workers[i]? = some .exited

theorem initial_valid (threads : ℕ) (queueSize : ℤ) :
    Valid threads queueSize (initial threads queueSize) where
  bound := rfl
  size := Nat.zero_le _
  split := rfl
  numbered := rfl
  counted task := by
    have hz : total (Worker.runs task) (List.replicate threads .lock) = 0 := by
      apply total_eq_zero
      intro w hw
      rw [List.eq_of_mem_replicate hw]
      rfl
    simp [initial, hz]
  length := by simp [initial]
  exited i hi := by
    have hm := List.mem_of_getElem? hi
    exact absurd (List.eq_of_mem_replicate hm) (by simp)
  joined i hi := by simp [initial, Destructor.joined] at hi

section

variable {threads : ℕ} {queueSize : ℤ} {s t : State}

theorem getElem?_set_exited {workers : List Worker} {i j : ℕ} {new : Worker}
    (hnew : new ≠ .exited) (h : (workers.set i new)[j]? = some .exited) :
    workers[j]? = some .exited := by
  rw [List.getElem?_set] at h
  split_ifs at h with hij hlen
  · exact absurd (Option.some.inj h) hnew
  · exact h

theorem getElem?_set_of_exited {workers : List Worker} {i j : ℕ} {old new : Worker}
    (hold : workers[i]? = some old) (hne : old ≠ .exited) (h : workers[j]? = some .exited) :
    (workers.set i new)[j]? = some .exited := by
  have hij : i ≠ j := by
    rintro rfl
    rw [hold] at h
    exact hne (Option.some.inj h)
  rw [List.getElem?_set_ne hij]
  exact h

-- The mutex and the callers are no part of the invariant.
theorem Valid.setMutex (hv : Valid threads queueSize s) (holder : Option Holder) :
    Valid threads queueSize { s with queueMutex := holder } :=
  { hv with }

theorem Valid.setCaller (hv : Valid threads queueSize s) (c : ℕ) (caller : Caller) :
    Valid threads queueSize (s.setCaller c caller) :=
  { hv with }

theorem Valid.setDestructor (hv : Valid threads queueSize s) (destructor : Destructor)
    (hd : destructor.joined threads = s.destructor.joined threads) :
    Valid threads queueSize { s with destructor := destructor } :=
  { hv with joined := fun i hi => hv.joined i (hd ▸ hi) }

-- A worker moves inside its loop.
theorem Valid.move (hv : Valid threads queueSize s) {i : ℕ} {old : Worker} (new : Worker)
    (hi : s.workers[i]? = some old) (hold : old.Looping) (hnew : new.Looping) :
    Valid threads queueSize (s.setWorker i new) where
  bound := hv.bound
  size := hv.size
  split := hv.split
  numbered := hv.numbered
  counted task := by
    have hset := total_set (Worker.runs task) s.workers i old new hi
    rw [hold.runs_eq, hnew.runs_eq] at hset
    have hc := hv.counted task
    simp only [State.setWorker]
    omega
  length := by
    simp only [State.setWorker, List.length_set]
    exact hv.length
  exited j hj := hv.exited j (getElem?_set_exited hnew.ne_exited hj)
  joined j hj := getElem?_set_of_exited hi hold.ne_exited (hv.joined j hj)

-- The worker takes the oldest task.
theorem Valid.take (hv : Valid threads queueSize s) {i task : ℕ} {rest : List ℕ}
    (hi : s.workers[i]? = some .test) (hq : s.tasks = task :: rest) :
    Valid threads queueSize
      ({ s with queueMutex := none, tasks := rest, taken := s.taken ++ [task] }.setWorker i
        (.running task)) where
  bound := hv.bound
  size := by
    have hs := hv.size
    rw [hq] at hs
    simp only [State.setWorker, List.length_cons] at hs ⊢
    omega
  split := by
    have hs := hv.split
    rw [hq] at hs
    simpa [State.setWorker] using hs
  numbered := hv.numbered
  counted other := by
    have hset := total_set (Worker.runs other) s.workers i .test (.running task) hi
    have hc := hv.counted other
    simp only [State.setWorker, List.count_append, List.count_singleton, Worker.runs] at hset ⊢
    by_cases he : task = other <;> simp [he] at hset ⊢ <;> omega
  length := by
    simp only [State.setWorker, List.length_set]
    exact hv.length
  exited j hj := by
    -- a worker that left saw the queue empty, and it is not empty now
    have he := (hv.exited j (getElem?_set_exited (by simp) hj)).2
    rw [hq] at he
    cases he
  joined j hj := getElem?_set_of_exited hi (by simp) (hv.joined j hj)

-- The worker leaves its loop: the pool is stopped and nothing is queued.
theorem Valid.leave (hv : Valid threads queueSize s) {i : ℕ} (hi : s.workers[i]? = some .test)
    (hs : s.stop = true) (hq : s.tasks = []) :
    Valid threads queueSize ({ s with queueMutex := none }.setWorker i .exited) where
  bound := hv.bound
  size := hv.size
  split := hv.split
  numbered := hv.numbered
  counted task := by
    have hset := total_set (Worker.runs task) s.workers i .test .exited hi
    have hc := hv.counted task
    simp only [State.setWorker, Worker.runs] at hset ⊢
    omega
  length := by
    simp only [State.setWorker, List.length_set]
    exact hv.length
  exited _ _ := ⟨hs, hq⟩
  joined j hj := getElem?_set_of_exited hi (by simp) (hv.joined j hj)

theorem Valid.ran (hv : Valid threads queueSize s) {i task : ℕ}
    (hi : s.workers[i]? = some (.running task)) :
    Valid threads queueSize ({ s with ran := s.ran ++ [task] }.setWorker i .lock) where
  bound := hv.bound
  size := hv.size
  split := hv.split
  numbered := hv.numbered
  counted other := by
    have hset := total_set (Worker.runs other) s.workers i (.running task) .lock hi
    have hc := hv.counted other
    simp only [State.setWorker, List.count_append, List.count_singleton, Worker.runs] at hset ⊢
    by_cases he : task = other <;> simp [he] at hset ⊢ <;> omega
  length := by
    simp only [State.setWorker, List.length_set]
    exact hv.length
  exited j hj := hv.exited j (getElem?_set_exited (by simp) hj)
  joined j hj := getElem?_set_of_exited hi (by simp) (hv.joined j hj)

theorem Valid.enqueueBody (hv : Valid threads queueSize s) (c : ℕ) :
    Valid threads queueSize (enqueueBody s c) := by
  unfold ThreadPool.enqueueBody
  dsimp only
  split_ifs with hstop hfull
  · exact (hv.setMutex none).setCaller c _
  · refine ⟨hv.bound, ?_, ?_, ?_, hv.counted, hv.length, ?_, hv.joined⟩
    · rw [hv.bound] at hfull
      simp only [State.setCaller, List.length_append, List.length_singleton]
      omega
    · have hs := hv.split
      simp [State.setCaller, hs]
    · have hn := hv.numbered
      simp only [State.setCaller, List.length_append, List.length_singleton, List.range_succ]
      rw [← hn]
    · intro j hj
      exact absurd (hv.exited j hj).1 hstop
  · exact (hv.setMutex none).setCaller c _

-- `notify_all` moves every waiting worker back to the mutex.
theorem Valid.notifyAll (hv : Valid threads queueSize s) :
    Valid threads queueSize { s with
      destructor := .join 0
      workers := s.workers.map fun w => if w = .waiting then .lock else w } where
  bound := hv.bound
  size := hv.size
  split := hv.split
  numbered := hv.numbered
  counted task := by
    have hsame : (s.workers.map fun w => if w = .waiting then Worker.lock else w).map
        (Worker.runs task) = s.workers.map (Worker.runs task) := by
      rw [List.map_map]
      apply List.map_congr_left
      intro w _
      by_cases hw : w = .waiting <;> simp [hw, Worker.runs]
    have hc := hv.counted task
    simp only [total] at hc ⊢
    rw [hsame]
    exact hc
  length := by
    rw [List.length_map]
    exact hv.length
  exited j hj := by
    rw [List.getElem?_map, Option.map_eq_some_iff] at hj
    obtain ⟨w, hw, hwe⟩ := hj
    split_ifs at hwe
    exact hv.exited j (hwe ▸ hw)
  joined j hj := by simp [Destructor.joined] at hj

theorem Valid.workerTest (hv : Valid threads queueSize s) {i : ℕ}
    (hi : s.workers[i]? = some .test) (ht : workerTest s i = some t) :
    Valid threads queueSize t := by
  unfold ThreadPool.workerTest at ht
  dsimp only at ht
  split_ifs at ht with hwake hleave
  · cases ht
    exact hv.leave hi hleave.1 hleave.2
  · cases hq : s.tasks with
    | nil => simp [hq] at ht
    | cons task rest =>
        simp only [hq, Option.some.injEq] at ht
        subst ht
        exact hv.take hi hq
  · cases ht
    exact (hv.setMutex none).move .waiting hi trivial trivial

theorem Valid.stepWorker (hv : Valid threads queueSize s) {a : Action}
    (ht : stepWorker s a = some t) : Valid threads queueSize t := by
  cases a with
  | workerLock i =>
      simp only [ThreadPool.stepWorker] at ht
      split_ifs at ht with hc
      cases ht
      exact (hv.setMutex _).move .test hc.1 trivial trivial
  | workerTest i =>
      simp only [ThreadPool.stepWorker] at ht
      split_ifs at ht with hc
      exact hv.workerTest hc ht
  | workerWake i =>
      simp only [ThreadPool.stepWorker] at ht
      split_ifs at ht with hc
      cases ht
      exact hv.move .lock hc trivial trivial
  | workerRan i =>
      simp only [ThreadPool.stepWorker] at ht
      split at ht
      next task hi =>
        cases ht
        exact hv.ran hi
      next => cases ht
  | _ => cases ht

theorem Valid.stepCaller (hv : Valid threads queueSize s) {a : Action}
    (ht : stepCaller s a = some t) : Valid threads queueSize t := by
  cases a with
  | enqueue c =>
      simp only [ThreadPool.stepCaller] at ht
      split at ht <;>
        cases ht <;>
        exact hv.setCaller c _
  | enqueueLock c =>
      simp only [ThreadPool.stepCaller] at ht
      split_ifs at ht
      cases ht
      exact (hv.setMutex _).setCaller c _
  | enqueueBody c =>
      simp only [ThreadPool.stepCaller] at ht
      split_ifs at ht
      cases ht
      exact hv.enqueueBody c
  | notifyOne c woken =>
      simp only [ThreadPool.stepCaller] at ht
      cases woken with
      | none =>
          dsimp only at ht
          split_ifs at ht
          cases ht
          exact hv.setCaller c _
      | some i =>
          dsimp only at ht
          split_ifs at ht with hn hi
          cases ht
          exact (hv.move .lock hi trivial trivial).setCaller c _
  | _ => cases ht

theorem Valid.join (hv : Valid threads queueSize s) (ht : stepDestructor s .join = some t) :
    Valid threads queueSize t := by
  simp only [ThreadPool.stepDestructor] at ht
  split at ht
  next i hd =>
    have hj := hv.joined
    rw [hd] at hj
    split_ifs at ht with hall hi
    · cases ht
      refine { hv with joined := fun j hlt => hj j ?_ }
      have hlen := hv.length
      simp only [Destructor.joined] at hlt ⊢
      omega
    · cases ht
      refine { hv with joined := fun j hlt => ?_ }
      by_cases hji : j = i
      · rw [hji]
        exact hi
      · apply hj
        simp only [Destructor.joined] at hlt ⊢
        omega
  next => cases ht

theorem Valid.stepDestructor (hv : Valid threads queueSize s) {a : Action}
    (ht : stepDestructor s a = some t) : Valid threads queueSize t := by
  cases a with
  | destroy =>
      simp only [ThreadPool.stepDestructor] at ht
      split_ifs at ht with hd
      cases ht
      exact hv.setDestructor .lock (by simp [hd, Destructor.joined])
  | destroyLock =>
      simp only [ThreadPool.stepDestructor] at ht
      split_ifs at ht with hd
      cases ht
      have hv' := hv.setMutex (some .destructor)
      exact hv'.setDestructor .locked (by simp [hd.1, Destructor.joined])
  | destroyBody =>
      simp only [ThreadPool.stepDestructor] at ht
      split_ifs at ht with hd
      cases ht
      exact { hv with
        exited := fun j hj => ⟨rfl, (hv.exited j hj).2⟩
        joined := fun j hj => by simp [Destructor.joined] at hj }
  | notifyAll =>
      simp only [ThreadPool.stepDestructor] at ht
      split_ifs at ht with hd
      cases ht
      exact hv.notifyAll
  | join => exact hv.join ht
  | _ => cases ht

theorem step_cases {a : Action} (h : step s a = some t) :
    stepWorker s a = some t ∨ stepCaller s a = some t ∨ stepDestructor s a = some t := by
  unfold step at h
  rw [Option.or_eq_some_iff, Option.or_eq_some_iff] at h
  tauto

theorem Valid.step (hv : Valid threads queueSize s) {a : Action}
    (ht : step s a = some t) : Valid threads queueSize t := by
  rcases step_cases ht with hw | hc | hd
  · exact hv.stepWorker hw
  · exact hv.stepCaller hc
  · exact hv.stepDestructor hd

theorem reachable_valid (h : (system threads queueSize).Reachable s) :
    Valid threads queueSize s := by
  refine System.Reachable.invariant (S := system threads queueSize) ?_ ?_ h
  · rintro _ rfl
    exact initial_valid threads queueSize
  · intro s a t hv hs
    exact hv.step hs

theorem step_of_stop {a : Action} (hstop : s.stop = true) (ht : step s a = some t) :
    t.stop = true ∧ t.accepted = s.accepted := by
  rcases step_cases ht with hw | hc | hd
  · unfold stepWorker workerTest State.setWorker at hw
    grind
  · unfold stepCaller enqueueBody State.setWorker State.setCaller at hc
    grind
  · unfold stepDestructor at hd
    grind

theorem run_of_stop {actions : List Action} (hstop : s.stop = true)
    (hr : (system threads queueSize).run s actions = some t) : t.accepted = s.accepted := by
  have hrel := System.run_relation (S := system threads queueSize)
    (R := fun s t => s.stop = true → t.stop = true ∧ t.accepted = s.accepted)
    (fun s hs => ⟨hs, rfl⟩) (fun s t u hst htu hs => ?_)
    (fun s a t hst hs => step_of_stop hs hst) hr
  · exact (hrel hstop).2
  · have ht := hst hs
    have hu := htu ht.1
    exact ⟨hu.1, hu.2.trans ht.2⟩

theorem enqueueBody_of_threw {c : ℕ} {what : String}
    (h : (enqueueBody s c).callers c = .threw what) :
    (enqueueBody s c).tasks = s.tasks ∧ (enqueueBody s c).accepted = s.accepted := by
  unfold enqueueBody at h ⊢
  dsimp only at h ⊢
  split_ifs at h ⊢
  · exact ⟨rfl, rfl⟩
  · simp [State.setCaller] at h
  · exact ⟨rfl, rfl⟩

theorem Valid.accepted_nodup (hv : Valid threads queueSize s) : s.accepted.Nodup := by
  rw [hv.numbered]
  exact List.nodup_range

-- All workers have left, so nothing is queued and no task is running.
theorem Valid.ran_perm (hthreads : 1 ≤ threads) (hv : Valid threads queueSize s)
    (hd : s.destructor = .done) : s.ran.Perm s.accepted := by
  have hall : ∀ i, i < threads → s.workers[i]? = some .exited := by
    have hj := hv.joined
    rw [hd] at hj
    exact hj
  have hempty : s.tasks = [] := (hv.exited 0 (hall 0 hthreads)).2
  have htaken : s.accepted = s.taken := by
    have hs := hv.split
    rw [hempty, List.append_nil] at hs
    exact hs
  rw [htaken, List.perm_iff_count]
  intro task
  have hidle : total (Worker.runs task) s.workers = 0 := by
    apply total_eq_zero
    intro w hw
    obtain ⟨i, hi⟩ := List.mem_iff_getElem?.mp hw
    have hlt : i < threads := by
      have hlen := (List.getElem?_eq_some_iff.mp hi).1
      rw [hv.length] at hlen
      exact hlen
    rw [hall i hlt] at hi
    cases hi
    rfl
  have hc := hv.counted task
  omega

theorem pool_safe (hthreads : 1 ≤ threads) (hq : 0 ≤ queueSize)
    (h : (system threads queueSize).Reachable s) :
    (s.tasks.length : ℤ) ≤ queueSize ∧
    (s.accepted = s.taken ++ s.tasks ∧ s.accepted.Nodup ∧
      (s.destructor = .done → s.ran.Perm s.accepted)) ∧
    (s.stop = true → ∀ actions t, (system threads queueSize).run s actions = some t →
      t.accepted = s.accepted) ∧
    (∀ c t what, step s (.enqueueBody c) = some t → t.callers c = .threw what →
      t.tasks = s.tasks ∧ t.accepted = s.accepted) := by
  have hv := reachable_valid h
  have hsize := hv.size
  refine ⟨by omega, ⟨hv.split, hv.accepted_nodup, hv.ran_perm hthreads⟩, ?_, ?_⟩
  · intro hstop actions t hr
    exact run_of_stop hstop hr
  · intro c t what hs hwhat
    have ht : enqueueBody s c = t := by
      by_cases hc : s.callers c = .locked
      · simpa [step, stepWorker, stepCaller, stepDestructor, hc] using hs
      · simp [step, stepWorker, stepCaller, stepDestructor, hc] at hs
    subst ht
    exact enqueueBody_of_threw hwhat

end

-- Two tasks are accepted and a third is refused; the two workers run them at the same time,
-- the second one ends first, and the pool is destroyed.
private def lifetime : List Action :=
  [.enqueue 0, .enqueueLock 0, .enqueueBody 0, .enqueue 1, .enqueueLock 1, .enqueueBody 1,
    .enqueue 2, .enqueueLock 2, .enqueueBody 2, .notifyOne 0 none, .notifyOne 1 none,
    .workerLock 0, .workerTest 0, .workerLock 1, .workerTest 1, .workerRan 1, .workerRan 0,
    .destroy, .destroyLock, .destroyBody, .notifyAll, .workerLock 1, .workerTest 1,
    .workerLock 0, .workerTest 0, .join, .join, .join]

theorem pool_safe_full : ∃ s, (system 2 2).Reachable s ∧ s.destructor = .done ∧
    s.callers 2 = .threw "task queue if full" ∧ s.accepted = [0, 1] ∧ s.ran = [1, 0] ∧
    s.ran.Perm s.accepted := by
  obtain ⟨s, hs⟩ : ∃ s, (system 2 2).run (initial 2 2) lifetime = some s := ⟨_, rfl⟩
  have hreach : (system 2 2).Reachable s := System.Reachable.run (.init rfl) hs
  have hv := pool_safe (by decide) (by decide) hreach
  cases hs
  exact ⟨_, hreach, rfl, rfl, rfl, rfl, hv.2.1.2.2 rfl⟩

end AsrServiceProxy.ThreadPool
