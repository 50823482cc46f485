import AsrServiceProxy.Lib.Counting
import AsrServiceProxy.Lib.Transition

-- A resource behind a lock and a condition variable, whose waiting threads
-- look at the resource a second time when they wake up, and then return.
namespace CondVar

open Transition Counting

-- Whom a call wakes while it holds the lock.
inductive Wakes where
  | nobody
  | one
  | all
deriving DecidableEq, Repr

-- `take` is what a thread in `wait` does to a resource that it finds ready.
structure Monitor (σ κ : Type*) where
  call : κ → σ → σ
  wakes : κ → Wakes
  take : σ → Option σ

inductive Phase where
  | waiting
  | awake
  | returned (value : ℕ)
deriving DecidableEq, Repr

-- A call of `wait`; it has no deadline when its time-out is negative.
structure Waiter where
  timeOut : ℤ
  phase : Phase
deriving DecidableEq, Repr

structure State (σ : Type*) where
  shared : σ
  waiters : List Waiter
deriving DecidableEq, Repr

-- `wake` is a wake-up that no call caused: a spurious one, or a deadline.
inductive Action (κ : Type*) where
  | call (c : κ) (woken : Option ℕ)
  | enter (timeOut : ℤ)
  | wake (i : ℕ)
  | resume (i : ℕ)
deriving DecidableEq, Repr

structure Return where
  timeOut : ℤ
  value : ℕ
deriving DecidableEq, Repr

variable {σ κ : Type*}

def Waiter.wakeUp (w : Waiter) : Waiter :=
  if w.phase = .waiting then { w with phase := .awake } else w

def State.waiterIn (s : State σ) (phase : Phase) (i : ℕ) : Option Waiter :=
  s.waiters[i]?.filter (·.phase = phase)

-- The waiters after a call; the scheduler picks the one that is woken.
def State.afterCall (s : State σ) : Wakes → Option ℕ → Option (List Waiter)
  | .nobody, none => some s.waiters
  | .all, none => some (s.waiters.map Waiter.wakeUp)
  | .one, none => if ∀ w ∈ s.waiters, w.phase ≠ .waiting then some s.waiters else none
  | .one, some i => (s.waiterIn .waiting i).map fun w => s.waiters.set i { w with phase := .awake }
  | _, some _ => none

namespace Monitor

variable (M : Monitor σ κ)

-- The value that `wait` returns, and the resource it leaves.
def check (shared : σ) : ℕ × σ :=
  match M.take shared with
  | some left => (1, left)
  | none => (0, shared)

-- Each action is one stretch of a thread's code under the lock.
def perform (s : State σ) : Action κ → Option (State σ × Option Return)
  | .call c woken => (s.afterCall (M.wakes c) woken).map fun waiters =>
      ({ shared := M.call c s.shared, waiters := waiters }, none)
  | .enter timeOut =>
      match M.take s.shared with
      | some left =>
          some ({ shared := left
                  waiters := s.waiters ++ [{ timeOut := timeOut, phase := .returned 1 }] },
            some { timeOut := timeOut, value := 1 })
      | none =>
          some ({ s with waiters := s.waiters ++ [{ timeOut := timeOut, phase := .waiting }] }, none)
  | .wake i => (s.waiterIn .waiting i).map fun w =>
      ({ s with waiters := s.waiters.set i { w with phase := .awake } }, none)
  | .resume i => (s.waiterIn .awake i).map fun w =>
      ({ shared := (M.check s.shared).2
         waiters := s.waiters.set i { w with phase := .returned (M.check s.shared).1 } },
        some { timeOut := w.timeOut, value := (M.check s.shared).1 })

def system (initial : σ) : System (State σ) (Action κ) where
  init s := s = { shared := initial, waiters := [] }
  step s a := (M.perform s a).map Prod.fst

-- The resource is ready for that many threads, one after the other.
def Supplies : ℕ → σ → Prop
  | 0, _ => True
  | n + 1, shared => ∃ left, M.take shared = some left ∧ Supplies n left

end Monitor

-- A wait without a deadline that has been woken and has still to return.
def Waiter.owed (w : Waiter) : ℕ := if w.timeOut < 0 ∧ w.phase = .awake then 1 else 0

def owedIn (waiters : List Waiter) : ℕ := total Waiter.owed waiters

def State.owed (s : State σ) : ℕ := owedIn s.waiters

-- A wait without a deadline that has still to return.
def Waiter.pending (w : Waiter) : ℕ :=
  if w.timeOut < 0 ∧ (w.phase = .waiting ∨ w.phase = .awake) then 1 else 0

def State.pending (s : State σ) : ℕ := total Waiter.pending s.waiters

def State.Infinite (s : State σ) (i : ℕ) : Prop := ∃ w, s.waiters[i]? = some w ∧ w.timeOut < 0

section

variable {s t : State σ} {i : ℕ} {w : Waiter} {phase : Phase}

theorem waiterIn_eq_some : s.waiterIn phase i = some w ↔ s.waiters[i]? = some w ∧ w.phase = phase := by
  simp [State.waiterIn, Option.filter_eq_some_iff]

theorem infinite_iff (h : s.waiters[i]? = some w) : s.Infinite i ↔ w.timeOut < 0 := by
  constructor
  · intro ⟨v, hv, hneg⟩
    rw [h] at hv
    cases hv
    exact hneg
  · exact fun hneg => ⟨w, h, hneg⟩

theorem owed_of_ne (h : w.phase ≠ .awake) : w.owed = 0 := if_neg fun hw => h hw.2

theorem owed_of_awake (h : w.phase = .awake) : w.owed = if w.timeOut < 0 then 1 else 0 := by
  simp [Waiter.owed, h]

theorem owed_set (h : s.waiters[i]? = some w) (new : Waiter) :
    owedIn (s.waiters.set i new) + w.owed = s.owed + new.owed :=
  total_set Waiter.owed s.waiters i w new h

theorem owed_set_awake (hget : s.waiters[i]? = some w) (hphase : w.phase = .waiting) :
    owedIn (s.waiters.set i { w with phase := .awake }) =
      s.owed + if w.timeOut < 0 then 1 else 0 := by
  have howed := owed_set hget { w with phase := .awake }
  rw [owed_of_ne (by simp [hphase]), owed_of_awake rfl, Nat.add_zero] at howed
  exact howed

-- A call that wakes one thread adds that thread.
theorem owedIn_afterCall_one {woken : Option ℕ} {waiters : List Waiter}
    (h : s.afterCall .one woken = some waiters) :
    (owedIn waiters = s.owed ∧ ∀ i ∈ woken, ¬s.Infinite i) ∨
    (owedIn waiters = s.owed + 1 ∧ ∃ i ∈ woken, s.Infinite i) := by
  cases woken with
  | none =>
      rw [State.afterCall] at h
      split at h
      · cases h
        exact .inl ⟨rfl, fun i hi => by cases hi⟩
      · cases h
  | some i =>
      obtain ⟨w, hw, rfl⟩ := Option.map_eq_some_iff.mp h
      obtain ⟨hget, hphase⟩ := waiterIn_eq_some.mp hw
      rw [owed_set_awake hget hphase]
      by_cases hneg : w.timeOut < 0
      · rw [if_pos hneg]
        exact .inr ⟨rfl, i, rfl, w, hget, hneg⟩
      · rw [if_neg hneg]
        refine .inl ⟨rfl, fun j hj => ?_⟩
        cases hj
        rw [infinite_iff hget]
        exact hneg

theorem owed_append (waiters : List Waiter) (timeOut : ℤ) (h : phase ≠ .awake) :
    owedIn (waiters ++ [{ timeOut := timeOut, phase := phase }]) = owedIn waiters := by
  have hnew := owed_of_ne (w := { timeOut := timeOut, phase := phase }) h
  rw [owedIn, total_append, total_cons, total_nil, hnew]
  rfl

theorem owed_wakeUp (w : Waiter) : w.wakeUp.owed = w.pending := by
  cases h : w.phase <;> simp [Waiter.wakeUp, Waiter.owed, Waiter.pending, h]

-- A call that wakes everybody leaves every pending wait to be served.
theorem owedIn_wakeUp (waiters : List Waiter) :
    owedIn (waiters.map Waiter.wakeUp) = total Waiter.pending waiters := by
  induction waiters with
  | nil => rfl
  | cons w rest ih =>
      rw [owedIn] at ih
      rw [List.map_cons, owedIn, total_cons, total_cons, owed_wakeUp, ih]

end

namespace Monitor

variable {M : Monitor σ κ} {s t : State σ} {a : Action κ} {r : Return} {ret : Option Return}

def Supplied (M : Monitor σ κ) (s : State σ) : Prop := M.Supplies s.owed s.shared

-- The step leaves enough for the waits that have been woken.
def Spares (M : Monitor σ κ) (s : State σ) : Action κ → Prop
  | .call c woken => ∀ waiters, s.afterCall (M.wakes c) woken = some waiters →
      M.Supplies (owedIn waiters) (M.call c s.shared)
  | .enter _ => ∀ left, M.take s.shared = some left → M.Supplies s.owed left
  | .wake i => s.Infinite i → M.Supplies (s.owed + 1) s.shared
  | .resume i => s.Infinite i ∨ ∀ left, M.take s.shared = some left → M.Supplies s.owed left

theorem check_of_take {left : σ} {shared : σ} (h : M.take shared = some left) :
    M.check shared = (1, left) := by rw [check, h]

theorem check_of_none {shared : σ} (h : M.take shared = none) : M.check shared = (0, shared) := by
  rw [check, h]

theorem supplies_succ {n : ℕ} {shared left : σ} (h : M.take shared = some left) :
    M.Supplies (n + 1) shared ↔ M.Supplies n left := by
  constructor
  · intro ⟨other, ho, hs⟩
    rw [h] at ho
    cases ho
    exact hs
  · exact fun hs => ⟨left, h, hs⟩

theorem spares_call_iff {c : κ} {woken : Option ℕ} {waiters : List Waiter}
    (hw : s.afterCall (M.wakes c) woken = some waiters) :
    M.Spares s (.call c woken) ↔ M.Supplies (owedIn waiters) (M.call c s.shared) := by
  constructor
  · exact fun hs => hs waiters hw
  · intro hs other ho
    rw [hw] at ho
    cases ho
    exact hs

theorem spares_take_of_none (h : M.take s.shared = none) :
    ∀ left, M.take s.shared = some left → M.Supplies s.owed left := by
  intro left hl
  rw [h] at hl
  cases hl

theorem spares_take_of_some {left : σ} (h : M.take s.shared = some left) :
    (∀ left, M.take s.shared = some left → M.Supplies s.owed left) ↔ M.Supplies s.owed left := by
  constructor
  · exact fun hs => hs left h
  · intro hs other ho
    rw [h] at ho
    cases ho
    exact hs

-- From a supplied state the steps that spare are those that lead to one.
theorem spares_iff (h : M.Supplied s) (hp : M.perform s a = some (t, ret)) :
    M.Spares s a ↔ M.Supplied t := by
  cases a with
  | call c woken =>
      obtain ⟨waiters, hw, ht⟩ := Option.map_eq_some_iff.mp hp
      cases ht
      exact spares_call_iff hw
  | enter timeOut =>
      rw [perform] at hp
      split at hp
      next left htake =>
        cases hp
        rw [Supplied, State.owed, owed_append _ _ (by simp)]
        exact spares_take_of_some htake
      next htake =>
        cases hp
        rw [Supplied, State.owed, owed_append _ _ (by simp)]
        exact iff_of_true (spares_take_of_none htake) h
  | wake i =>
      obtain ⟨w, hw, ht⟩ := Option.map_eq_some_iff.mp hp
      cases ht
      obtain ⟨hget, hphase⟩ := waiterIn_eq_some.mp hw
      rw [Supplied, State.owed, Spares, infinite_iff hget, owed_set_awake hget hphase]
      by_cases hneg : w.timeOut < 0
      · rw [if_pos hneg]
        exact ⟨fun hs => hs hneg, fun hs _ => hs⟩
      · rw [if_neg hneg]
        exact iff_of_true (fun hn => absurd hn hneg) h
  | resume i =>
      obtain ⟨w, hw, ht⟩ := Option.map_eq_some_iff.mp hp
      cases ht
      obtain ⟨hget, hphase⟩ := waiterIn_eq_some.mp hw
      have howed := owed_set hget { w with phase := .returned (M.check s.shared).1 }
      rw [owed_of_awake hphase, owed_of_ne (by simp), Nat.add_zero] at howed
      rw [Supplied, State.owed, Spares, infinite_iff hget]
      by_cases hneg : w.timeOut < 0
      · rw [if_pos hneg] at howed
        refine iff_of_true (.inl hneg) ?_
        rw [Supplied, ← howed] at h
        obtain ⟨left, htake, hs⟩ := h
        rw [check_of_take htake]
        rw [check_of_take htake] at hs
        exact hs
      · rw [if_neg hneg, Nat.add_zero] at howed
        rw [howed]
        cases htake : M.take s.shared with
        | none =>
            rw [check_of_none htake, ← htake]
            exact iff_of_true (.inr (spares_take_of_none htake)) h
        | some left =>
            rw [check_of_take htake, or_iff_right hneg, ← htake]
            exact spares_take_of_some htake

theorem exists_perform {initial : σ} (hs : (M.system initial).step s a = some t) :
    ∃ ret, M.perform s a = some (t, ret) := by
  obtain ⟨⟨u, ret⟩, hp, rfl⟩ := Option.map_eq_some_iff.mp hs
  exact ⟨ret, hp⟩

theorem supplied_of_reachableWhen {initial : σ} {cond : State σ → Action κ → Prop}
    (hcond : ∀ s a t ret, M.Supplied s → M.perform s a = some (t, ret) → cond s a → M.Spares s a)
    (h : (M.system initial).ReachableWhen cond s) : M.Supplied s := by
  refine h.invariant (fun s hs => ?_) (fun s a t hi hc hs => ?_)
  · rw [hs]
    trivial
  · obtain ⟨ret, hp⟩ := exists_perform hs
    exact (spares_iff hi hp).mp (hcond s a _ ret hi hp hc)

-- In a supplied state a wait without a deadline that returns has taken something.
theorem Supplied.succeeds (h : M.Supplied s) (hp : M.perform s a = some (t, some r))
    (hinf : r.timeOut < 0) : r.value = 1 ∧ M.take s.shared = some t.shared := by
  cases a with
  | call c woken =>
      obtain ⟨waiters, -, ht⟩ := Option.map_eq_some_iff.mp hp
      cases ht
  | enter timeOut =>
      rw [perform] at hp
      split at hp
      next left htake =>
        cases hp
        exact ⟨rfl, htake⟩
      next => cases hp
  | wake i =>
      obtain ⟨w, -, ht⟩ := Option.map_eq_some_iff.mp hp
      cases ht
  | resume i =>
      obtain ⟨w, hw, ht⟩ := Option.map_eq_some_iff.mp hp
      cases ht
      obtain ⟨hget, hphase⟩ := waiterIn_eq_some.mp hw
      have hpos : 0 < s.owed := by
        have hle := le_total Waiter.owed s.waiters i w hget
        rw [owed_of_awake hphase, if_pos hinf] at hle
        exact hle
      obtain ⟨n, hn⟩ := Nat.exists_eq_succ_of_ne_zero (Nat.ne_of_gt hpos)
      rw [Supplied, hn] at h
      obtain ⟨left, htake, -⟩ := h
      rw [check_of_take htake]
      exact ⟨rfl, htake⟩

-- Where too little is left, the woken waits fail by going on one after the
-- other: the last of them finds nothing.
theorem exists_failure (initial : σ) (h : ¬M.Supplied s) :
    ∃ actions t u i r, (M.system initial).run s actions = some t ∧
      M.perform t (.resume i) = some (u, some r) ∧ r.timeOut < 0 ∧ r.value = 0 := by
  induction hn : s.owed generalizing s with
  | zero =>
      rw [Supplied, hn] at h
      exact absurd trivial h
  | succ n ih =>
      have hpos : 0 < s.owed := by omega
      obtain ⟨i, w, hget, hw⟩ := exists_of_total_pos Waiter.owed s.waiters hpos
      have hawake : w.timeOut < 0 ∧ w.phase = .awake := by
        by_contra hnot
        rw [Waiter.owed, if_neg hnot] at hw
        exact absurd hw (Nat.lt_irrefl 0)
      have hin := waiterIn_eq_some.mpr ⟨hget, hawake.2⟩
      have hp : M.perform s (.resume i) = _ := Option.map_eq_some_iff.mpr ⟨w, hin, rfl⟩
      cases htake : M.take s.shared with
      | none =>
          rw [check_of_none htake] at hp
          exact ⟨[], s, _, i, _, rfl, hp, hawake.1, rfl⟩
      | some left =>
          rw [check_of_take htake] at hp
          have howed := owed_set hget { w with phase := .returned 1 }
          rw [owed_of_awake hawake.2, if_pos hawake.1, owed_of_ne (by simp), hn] at howed
          have hleft : ¬M.Supplied
              { shared := left, waiters := s.waiters.set i { w with phase := .returned 1 } } := by
            intro hs
            rw [Supplied, State.owed, Nat.add_right_cancel howed] at hs
            rw [Supplied, hn, supplies_succ htake] at h
            exact h hs
          obtain ⟨actions, t, u, j, r, hrun, hfail⟩ := ih hleft (Nat.add_right_cancel howed)
          refine ⟨.resume i :: actions, t, u, j, r, ?_, hfail⟩
          rw [System.run]
          show ((M.perform s (.resume i)).map Prod.fst).bind _ = _
          rw [hp]
          exact hrun

theorem failure_of_not_spares (initial : σ) (h : M.Supplied s)
    (hp : M.perform s a = some (t, ret)) (hnot : ¬M.Spares s a) :
    ∃ actions u v i r, (M.system initial).run t actions = some u ∧
      M.perform u (.resume i) = some (v, some r) ∧ r.timeOut < 0 ∧ r.value = 0 :=
  exists_failure initial fun ht => hnot ((spares_iff h hp).mpr ht)

end Monitor

end CondVar
