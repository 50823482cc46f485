import AsrServiceProxy.Lib.CondVar

-- What is handed in and what is taken over a whole run of a monitor, and whether something
-- can be left lying while a thread sleeps.
namespace CondVar

open Transition Counting

variable {σ κ : Type*}

def Phase.asleep : Phase → ℕ
  | .waiting => 1
  | _ => 0

def Phase.awakened : Phase → ℕ
  | .awake => 1
  | _ => 0

def Phase.taken : Phase → ℕ
  | .returned value => value
  | _ => 0

-- A count over the threads, by where they are.
def countIn (f : Phase → ℕ) (waiters : List Waiter) : ℕ := total (fun w => f w.phase) waiters

def State.count (f : Phase → ℕ) (s : State σ) : ℕ := countIn f s.waiters

theorem countIn_append (f : Phase → ℕ) (waiters : List Waiter) (w : Waiter) :
    countIn f (waiters ++ [w]) = countIn f waiters + f w.phase := by
  simp [countIn]

theorem countIn_set (f : Phase → ℕ) {waiters : List Waiter} {i : ℕ} {w : Waiter}
    (h : waiters[i]? = some w) (phase : Phase) :
    countIn f (waiters.set i { w with phase := phase }) + f w.phase =
      countIn f waiters + f phase :=
  total_set (fun w : Waiter => f w.phase) waiters i w { w with phase := phase } h

theorem countIn_eq_zero {f : Phase → ℕ} {waiters : List Waiter}
    (h : ∀ w ∈ waiters, f w.phase = 0) : countIn f waiters = 0 :=
  total_eq_zero (fun w : Waiter => f w.phase) waiters h

theorem taken_wakeUp (waiters : List Waiter) :
    countIn Phase.taken (waiters.map Waiter.wakeUp) = countIn Phase.taken waiters := by
  induction waiters with
  | nil => rfl
  | cons w rest ih =>
      simp only [countIn, List.map_cons, total_cons] at ih ⊢
      rw [ih, Waiter.wakeUp]
      by_cases hw : w.phase = .waiting <;> simp [hw, Phase.taken]

theorem asleep_wakeUp (waiters : List Waiter) :
    countIn Phase.asleep (waiters.map Waiter.wakeUp) = 0 := by
  apply countIn_eq_zero
  intro w hw
  obtain ⟨v, -, rfl⟩ := List.mem_map.mp hw
  rw [Waiter.wakeUp]
  by_cases hv : v.phase = .waiting
  · rw [if_pos hv]
    rfl
  · rw [if_neg hv]
    cases hp : v.phase with
    | waiting => exact absurd hp hv
    | awake => rfl
    | returned value => rfl

namespace Monitor

variable (M : Monitor σ κ)

-- What a step of a monitor can do.
inductive Move (s : State σ) : Action κ → State σ → Prop
  | call {c : κ} {woken : Option ℕ} {waiters : List Waiter} :
      s.afterCall (M.wakes c) woken = some waiters →
      Move s (.call c woken) { shared := M.call c s.shared, waiters := waiters }
  | takes {timeOut : ℤ} {left : σ} : M.take s.shared = some left →
      Move s (.enter timeOut)
        { shared := left
          waiters := s.waiters ++ [{ timeOut := timeOut, phase := .returned 1 }] }
  | sleeps {timeOut : ℤ} : M.take s.shared = none →
      Move s (.enter timeOut)
        { s with waiters := s.waiters ++ [{ timeOut := timeOut, phase := .waiting }] }
  | wakes {i : ℕ} {w : Waiter} : s.waiters[i]? = some w → w.phase = .waiting →
      Move s (.wake i) { s with waiters := s.waiters.set i { w with phase := .awake } }
  | returns {i : ℕ} {w : Waiter} {left : σ} : s.waiters[i]? = some w → w.phase = .awake →
      M.take s.shared = some left →
      Move s (.resume i)
        { shared := left, waiters := s.waiters.set i { w with phase := .returned 1 } }
  | fails {i : ℕ} {w : Waiter} : s.waiters[i]? = some w → w.phase = .awake →
      M.take s.shared = none →
      Move s (.resume i) { s with waiters := s.waiters.set i { w with phase := .returned 0 } }

variable {M} {s t : State σ} {a : Action κ}

theorem move_of_step {initial : σ} (hs : (M.system initial).step s a = some t) : M.Move s a t := by
  obtain ⟨ret, hp⟩ := exists_perform hs
  cases a with
  | call c woken =>
      obtain ⟨waiters, hw, ht⟩ := Option.map_eq_some_iff.mp hp
      cases ht
      exact .call hw
  | enter timeOut =>
      rw [perform] at hp
      split at hp
      next left htake =>
        cases hp
        exact .takes htake
      next htake =>
        cases hp
        exact .sleeps htake
  | wake i =>
      obtain ⟨w, hw, ht⟩ := Option.map_eq_some_iff.mp hp
      cases ht
      obtain ⟨hget, hphase⟩ := waiterIn_eq_some.mp hw
      exact .wakes hget hphase
  | resume i =>
      obtain ⟨w, hw, ht⟩ := Option.map_eq_some_iff.mp hp
      cases ht
      obtain ⟨hget, hphase⟩ := waiterIn_eq_some.mp hw
      cases htake : M.take s.shared with
      | some left =>
          rw [check_of_take htake]
          exact .returns hget hphase htake
      | none =>
          rw [check_of_none htake]
          exact .fails hget hphase htake

-- A resource of tokens, as long as it is valid: a thread takes one of them, when there is one.
-- The resource may owe tokens, and then has a negative number of them.
structure Metered (M : Monitor σ κ) (valid : σ → Prop) (tokens : σ → ℤ) : Prop where
  call : ∀ c shared, valid shared → valid (M.call c shared)
  takes : ∀ shared left, valid shared → M.take shared = some left →
    valid left ∧ tokens left + 1 = tokens shared
  empty : ∀ shared, valid shared → M.take shared = none → tokens shared ≤ 0

end Monitor

theorem taken_afterCall {s : State σ} {wakes : Wakes} {woken : Option ℕ} {waiters : List Waiter}
    (h : s.afterCall wakes woken = some waiters) :
    countIn Phase.taken waiters = s.count Phase.taken := by
  cases woken with
  | none =>
      cases wakes with
      | nobody =>
          cases h
          rfl
      | all =>
          cases h
          exact taken_wakeUp s.waiters
      | one =>
          rw [State.afterCall] at h
          split_ifs at h
          cases h
          rfl
  | some i =>
      cases wakes with
      | one =>
          obtain ⟨w, hw, rfl⟩ := Option.map_eq_some_iff.mp h
          obtain ⟨hget, hphase⟩ := waiterIn_eq_some.mp hw
          have hset := countIn_set Phase.taken hget .awake
          rw [hphase] at hset
          exact hset
      | nobody => cases h
      | all => cases h

-- The tokens that an action hands in.
def Action.handsIn (posted : κ → ℕ) : Action κ → ℕ
  | .call c _ => posted c
  | _ => 0

-- The tokens that are there and those that were taken.
def State.worth (tokens : σ → ℤ) (s : State σ) : ℤ := tokens s.shared + s.count Phase.taken

section

variable {M : Monitor σ κ} {valid : σ → Prop} {tokens : σ → ℤ} {posted : κ → ℕ}
  {R : ℤ → ℤ → Prop} {cond : State σ → Action κ → Prop} {s t : State σ} {a : Action κ}

theorem Monitor.Metered.keeps (hM : M.Metered valid tokens) (hs : valid s.shared)
    (hm : M.Move s a t) : valid t.shared := by
  cases hm with
  | call hw => exact hM.call _ _ hs
  | takes htake => exact (hM.takes _ _ hs htake).1
  | sleeps htake => exact hs
  | wakes hget hphase => exact hs
  | returns hget hphase htake => exact (hM.takes _ _ hs htake).1
  | fails hget hphase htake => exact hs

-- Only a call changes what is there and was taken.
theorem Monitor.Metered.move (hM : M.Metered valid tokens) (hs : valid s.shared)
    (hm : M.Move s a t) :
    (∃ c woken, a = .call c woken ∧
      t.worth tokens = tokens (M.call c s.shared) + s.count Phase.taken) ∨
    (a.handsIn posted = 0 ∧ t.worth tokens = s.worth tokens) := by
  cases hm with
  | @call c woken waiters hw =>
      refine .inl ⟨c, woken, rfl, ?_⟩
      rw [State.worth, State.count, taken_afterCall hw]
  | @takes timeOut left htake =>
      have htokens := (hM.takes _ _ hs htake).2
      refine .inr ⟨rfl, ?_⟩
      simp only [State.worth, State.count, countIn_append, Phase.taken]
      omega
  | sleeps htake =>
      refine .inr ⟨rfl, ?_⟩
      simp only [State.worth, State.count, countIn_append, Phase.taken]
      omega
  | @wakes i w hget hphase =>
      have hset := countIn_set Phase.taken hget .awake
      refine .inr ⟨rfl, ?_⟩
      simp only [hphase, State.worth, State.count, Phase.taken] at hset ⊢
      omega
  | @returns i w left hget hphase htake =>
      have htokens := (hM.takes _ _ hs htake).2
      have hset := countIn_set Phase.taken hget (.returned 1)
      refine .inr ⟨rfl, ?_⟩
      simp only [hphase, State.worth, State.count, Phase.taken] at hset ⊢
      omega
  | @fails i w hget hphase htake =>
      have hset := countIn_set Phase.taken hget (.returned 0)
      refine .inr ⟨rfl, ?_⟩
      simp only [hphase, State.worth, State.count, Phase.taken] at hset ⊢
      omega

-- What is there and was taken, against what was so before and what was handed in: equal or at
-- most as much, as one call compares them in a run whose steps meet the condition.
theorem Monitor.Metered.run (hM : M.Metered valid tokens) (hrefl : ∀ a, R a a)
    (htrans : ∀ a b c, R a b → R b c → R a c) (hadd : ∀ a b k, R a b → R (a + k) (b + k))
    (hcall : ∀ s c woken, valid s.shared → cond s (.call c woken) →
      R (tokens (M.call c s.shared)) (tokens s.shared + posted c))
    {initial : σ} {actions : List (Action κ)} (hs : valid s.shared)
    (hmeets : (M.system initial).Meets cond s actions)
    (hr : (M.system initial).run s actions = some t) :
    R (t.worth tokens) (s.worth tokens + total (Action.handsIn posted) actions) := by
  induction actions generalizing s with
  | nil =>
      cases hr
      simpa using hrefl _
  | cons a rest ih =>
      obtain ⟨u, hu, hr⟩ := Option.bind_eq_some_iff.mp hr
      obtain ⟨hcond, hmeets⟩ := hmeets
      rw [hu] at hmeets
      have hm := Monitor.move_of_step hu
      have hstep : R (u.worth tokens) (s.worth tokens + a.handsIn posted) := by
        rcases hM.move hs hm with ⟨c, woken, rfl, hworth⟩ | ⟨hnone, hworth⟩
        · have hc := hadd _ _ (s.count Phase.taken) (hcall s c woken hs hcond)
          rw [add_right_comm] at hc
          rw [hworth]
          exact hc
        · rw [hworth, hnone]
          simpa using hrefl _
      have hrest := hadd _ _ (total (Action.handsIn posted) rest) hstep
      rw [total_cons, Int.natCast_add, ← add_assoc]
      exact htrans _ _ _ (ih (hM.keeps hs hm) hmeets hr) hrest

-- A call wakes one sleeper, all of them or none.
theorem asleep_afterCall {wakes : Wakes} {woken : Option ℕ} {waiters : List Waiter}
    (h : s.afterCall wakes woken = some waiters) :
    countIn Phase.asleep waiters = 0 ∨
      wakes = .nobody ∧ waiters = s.waiters ∨
      wakes = .one ∧ countIn Phase.asleep waiters + 1 = s.count Phase.asleep ∧
        countIn Phase.awakened waiters = s.count Phase.awakened + 1 := by
  cases woken with
  | none =>
      cases wakes with
      | nobody =>
          cases h
          exact .inr (.inl ⟨rfl, rfl⟩)
      | all =>
          cases h
          exact .inl (asleep_wakeUp s.waiters)
      | one =>
          rw [State.afterCall] at h
          split_ifs at h with hnone
          cases h
          refine .inl (countIn_eq_zero fun w hw => ?_)
          have hne := hnone w hw
          cases hphase : w.phase with
          | waiting => exact absurd hphase hne
          | awake => rfl
          | returned value => rfl
  | some i =>
      cases wakes with
      | one =>
          obtain ⟨w, hw, rfl⟩ := Option.map_eq_some_iff.mp h
          obtain ⟨hget, hphase⟩ := waiterIn_eq_some.mp hw
          have hasleep := countIn_set Phase.asleep hget .awake
          have hawakened := countIn_set Phase.awakened hget .awake
          rw [hphase] at hasleep hawakened
          exact .inr (.inr ⟨rfl, hasleep, hawakened⟩)
      | nobody => cases h
      | all => cases h

-- While a thread sleeps, there is a thread on its way for every token.
def NoneLeft (tokens : σ → ℤ) (s : State σ) : Prop :=
  0 < s.count Phase.asleep → tokens s.shared ≤ s.count Phase.awakened

theorem NoneLeft.move (hM : M.Metered valid tokens)
    (hone : ∀ c shared, M.wakes c = .one → tokens (M.call c shared) ≤ tokens shared + 1)
    (hnobody : ∀ c shared, M.wakes c = .nobody → tokens (M.call c shared) ≤ tokens shared)
    (hs : valid s.shared) (h : NoneLeft tokens s) (hm : M.Move s a t) : NoneLeft tokens t := by
  intro hsleeper
  cases hm with
  | @call c woken waiters hw =>
      rcases asleep_afterCall hw with hzero | ⟨hwakes, rfl⟩ | ⟨hwakes, hasleep, hawakened⟩
      · simp only [State.count] at hsleeper
        omega
      · exact (hnobody c s.shared hwakes).trans (h hsleeper)
      · have hle := h (by omega)
        have hcall := hone c s.shared hwakes
        simp only [State.count] at hawakened hle ⊢
        omega
  | @takes timeOut left htake =>
      have htokens := (hM.takes _ _ hs htake).2
      simp only [State.count, countIn_append, Phase.asleep, Phase.awakened] at hsleeper ⊢
      have hle := h hsleeper
      simp only [State.count] at hle
      omega
  | sleeps htake =>
      exact (hM.empty _ hs htake).trans (Int.natCast_nonneg _)
  | @wakes i w hget hphase =>
      have hasleep := countIn_set Phase.asleep hget .awake
      have hawakened := countIn_set Phase.awakened hget .awake
      simp only [hphase, State.count, Phase.asleep, Phase.awakened] at hasleep hawakened hsleeper ⊢
      have hle := h (by simp only [State.count]; omega)
      simp only [State.count] at hle
      omega
  | @returns i w left hget hphase htake =>
      have htokens := (hM.takes _ _ hs htake).2
      have hasleep := countIn_set Phase.asleep hget (.returned 1)
      have hawakened := countIn_set Phase.awakened hget (.returned 1)
      simp only [hphase, State.count, Phase.asleep, Phase.awakened] at hasleep hawakened hsleeper ⊢
      have hle := h (by simp only [State.count]; omega)
      simp only [State.count] at hle
      omega
  | @fails i w hget hphase htake =>
      exact (hM.empty _ hs htake).trans (Int.natCast_nonneg _)

theorem NoneLeft.reachable (hM : M.Metered valid tokens)
    (hone : ∀ c shared, M.wakes c = .one → tokens (M.call c shared) ≤ tokens shared + 1)
    (hnobody : ∀ c shared, M.wakes c = .nobody → tokens (M.call c shared) ≤ tokens shared)
    {initial : σ} (hinitial : valid initial) (h : (M.system initial).Reachable s) :
    NoneLeft tokens s := by
  have hboth := System.Reachable.invariant (S := M.system initial)
    (I := fun s => valid s.shared ∧ NoneLeft tokens s) ?_ ?_ h
  · exact hboth.2
  · rintro _ rfl
    exact ⟨hinitial, fun hsleeper => absurd hsleeper (Nat.lt_irrefl 0)⟩
  · intro s a t hi hs
    have hm := Monitor.move_of_step hs
    exact ⟨hM.keeps hi.1 hm, hi.2.move hM hone hnobody hi.1 hm⟩

-- While the resource is ready, nobody sleeps.
def AllAwake (M : Monitor σ κ) (s : State σ) : Prop :=
  (M.take s.shared).isSome → s.count Phase.asleep = 0

-- Every call that makes the resource ready wakes all.
theorem AllAwake.move
    (hcall : ∀ c shared, M.wakes c ≠ .all → (M.take (M.call c shared)).isSome →
      (M.take shared).isSome)
    (h : AllAwake M s) (hm : M.Move s a t) : AllAwake M t := by
  intro hready
  cases hm with
  | @call c woken waiters hw =>
      rcases asleep_afterCall hw with hzero | ⟨hwakes, rfl⟩ | ⟨hwakes, hasleep, -⟩
      · exact hzero
      · exact h (hcall c s.shared (by simp [hwakes]) hready)
      · have hs := h (hcall c s.shared (by simp [hwakes]) hready)
        simp only [State.count] at hasleep hs ⊢
        omega
  | @takes timeOut left htake =>
      have hs := h (by rw [htake]; rfl)
      simp only [State.count, countIn_append, Phase.asleep] at hs ⊢
      exact hs
  | sleeps htake =>
      rw [htake] at hready
      cases hready
  | @wakes i w hget hphase =>
      have hs := h hready
      have hasleep := countIn_set Phase.asleep hget .awake
      simp only [hphase, State.count, Phase.asleep] at hs hasleep ⊢
      omega
  | @returns i w left hget hphase htake =>
      have hs := h (by rw [htake]; rfl)
      have hasleep := countIn_set Phase.asleep hget (.returned 1)
      simp only [hphase, State.count, Phase.asleep] at hs hasleep ⊢
      omega
  | fails hget hphase htake =>
      rw [htake] at hready
      cases hready

theorem AllAwake.reachable
    (hcall : ∀ c shared, M.wakes c ≠ .all → (M.take (M.call c shared)).isSome →
      (M.take shared).isSome)
    {initial : σ} (h : (M.system initial).Reachable s) : AllAwake M s := by
  refine System.Reachable.invariant (S := M.system initial) ?_ ?_ h
  · rintro _ rfl _
    rfl
  · intro s a t hi hs
    exact hi.move hcall (Monitor.move_of_step hs)

end

end CondVar
