import AsrServiceProxy.Log.LogThread.Lemmas

namespace AsrServiceProxy.Log.LogThread

open Counting

variable {ι : Type*} {s t : State ι}

-- The item that a call carries until it has pushed or delivered it.
def Append.item? : Append ι → Option ι
  | .test li | .lockLogs li | .push li | .lockDisp li | .receive li => some li
  | _ => none

-- One while the call may still push its item.
def Append.owes : Append ι → ℕ
  | .test _ | .lockLogs _ | .push _ => 1
  | _ => 0

theorem append_next {c : ℕ} {pc : Append ι} (ht : append s c pc = some t) :
    (t.appenders c).owes ≤ pc.owes ∧
      ((t.appenders c).item? = pc.item? ∨ (t.appenders c).item? = none) := by
  cases pc with
  | idle => cases ht
  | test | lockLogs | lockDisp =>
      simp only [append] at ht
      split_ifs at ht <;>
        cases ht <;>
        simp [State.setAppend, Append.owes, Append.item?]
  | push | signal | unlock | receive =>
      cases ht
      simp [State.setAppend, Append.owes, Append.item?]

theorem refOp_append_eq_none {c : ℕ} (hpush : ∀ li, s.appenders c ≠ .push li) :
    refOp s (.append c) = none := by
  cases hpc : s.appenders c with
  | push li => exact absurd hpc (hpush li)
  | _ => simp [refOp, hpc]

-- A step of another kind leaves every `append_log` call where it is.
theorem step_appenders {a : Action ι} (ht : step s a = some t) (c : ℕ)
    (ha : a ≠ .append c ∧ ∀ li, a ≠ .appendLog c li) : t.appenders c = s.appenders c := by
  cases a with
  | disp i =>
      obtain ⟨pc, hi, ht⟩ := Option.bind_eq_some_iff.mp ht
      obtain ⟨new, hs⟩ := dispatch_step ht
      rw [hs.appenders]
  | appendLog d li =>
      obtain ⟨_, hs⟩ := appendLog_step ht
      have hd : c ≠ d := fun he => ha.2 li (he ▸ rfl)
      rw [hs.appenders, Function.update_of_ne hd]
  | append d =>
      obtain ⟨new, hs⟩ := append_step ht
      have hd : c ≠ d := fun he => ha.1 (he ▸ rfl)
      rw [hs.appenders, Function.update_of_ne hd]
  | start | stop => rw [(call_step (by simp) ht).appenders]
  | ctl => rw [(control_step ht).appenders]
  | spurious => rw [(spurious_step ht).2.2.appenders]

theorem refOp_addRef {a : Action ι} {x : ι} (h : refOp s a = some (.addRef x)) :
    ∃ c, a = .append c ∧ s.appenders c = .push x := by
  unfold refOp at h
  grind

variable [DecidableEq ι]

def Disp.holds (x : ι) (d : Disp ι) : ℕ := if d.item? = some x then 1 else 0

-- How often the item is in the queue or held by a dispatcher.
def State.held (s : State ι) (x : ι) : ℕ := s.logs.count x + total (Disp.holds x) s.dispatchers

def RefOp.adds (x : ι) : Option (RefOp ι) → ℕ
  | some (.addRef li) => if li = x then 1 else 0
  | _ => 0

def RefOp.drops (x : ι) : Option (RefOp ι) → ℕ
  | some (.release li) => if li = x then 1 else 0
  | _ => 0

theorem DispStep.held_add {i : ℕ} {old new : Disp ι} (hs : DispStep s t i old new)
    (hi : s.dispatchers[i]? = some old) (x : ι) :
    t.held x + RefOp.drops x (refOp s (.disp i)) = s.held x := by
  have hset := total_set (Disp.holds x) s.dispatchers i old new hi
  rw [← hs.dispatchers] at hset
  unfold State.held
  cases hs.queue with
  | away _ hlogs _ hitem =>
      rw [hlogs]
      rcases hitem with ⟨hrel, hsame⟩ | ⟨li, rfl, hnone⟩
      · have hop : refOp s (.disp i) = none := by
          simp only [refOp, hi]
          cases old with
          | release li => exact absurd rfl (hrel li)
          | _ => rfl
        simp only [hop, RefOp.drops, Disp.holds, hsame] at hset ⊢
        omega
      · have hnew : new.holds x = 0 := by simp [Disp.holds, hnone]
        rw [hnew] at hset
        simp only [refOp, hi, RefOp.drops, Disp.holds, Disp.item?, Option.some.injEq] at hset ⊢
        omega
  | empty hold hl ht _ hnew =>
      subst hold hnew
      simp only [refOp, hi, RefOp.drops, Disp.holds, Disp.item?, hl, ht, reduceCtorEq,
        if_false] at hset ⊢
      omega
  | popped li hold hlogs _ hnew =>
      subst hold hnew
      rw [hlogs, List.count_cons]
      simp only [refOp, hi, RefOp.drops, Disp.holds, Disp.item?, reduceCtorEq, Option.some.injEq,
        beq_iff_eq, if_false] at hset ⊢
      omega

theorem AppendStep.held_add {c : ℕ} {old new : Append ι} (hs : AppendStep s t c old new)
    (hc : s.appenders c = old) (x : ι) :
    t.held x = s.held x + RefOp.adds x (refOp s (.append c)) := by
  unfold State.held
  rw [hs.dispatchers]
  cases hs.queue with
  | away hpush hlogs =>
      have hop := refOp_append_eq_none (hc ▸ hpush)
      rw [hlogs, hop]
      simp only [RefOp.adds, Nat.add_zero]
  | pushed li hpush hlogs =>
      subst hpush
      rw [hlogs, List.count_append]
      simp only [refOp, hc, RefOp.adds, List.count_singleton, beq_iff_eq]
      omega

theorem ControlStep.dispatchers_held (hs : ControlStep s t) (x : ι) :
    total (Disp.holds x) t.dispatchers = total (Disp.holds x) s.dispatchers := by
  rcases hs.dispatchers with hsame | hnew
  · rw [hsame]
  · rw [hnew]
    simp [Disp.holds, Disp.item?]

theorem control_held (ht : control s s.ctl = some t) (x : ι) :
    t.held x + RefOp.drops x (refOp s .ctl) = s.held x := by
  have hs := control_step ht
  unfold State.held
  rw [hs.dispatchers_held x]
  cases hc : s.ctl with
  | stopDrainLogs =>
      rw [hc] at ht
      cases hl : s.logs with
      | nil =>
          simp only [control, hl] at ht
          cases ht
          simp [refOp, hc, hl, RefOp.drops]
      | cons li rest =>
          simp only [control, hl] at ht
          cases ht
          rw [List.count_cons]
          simp only [refOp, hc, hl, RefOp.drops, beq_iff_eq]
          omega
  | _ =>
      have hlogs : t.logs = s.logs := by
        rcases hs.queue with hsame | ⟨li, hd, _⟩
        · exact hsame
        · rw [hc] at hd
          cases hd
      simp [refOp, hc, hlogs, RefOp.drops]

theorem adds_eq_zero {a : Action ι} (ha : ∀ c, a ≠ .append c) (x : ι) :
    RefOp.adds x (refOp s a) = 0 := by
  unfold refOp RefOp.adds
  grind

theorem drops_eq_zero (c : ℕ) (x : ι) : RefOp.drops x (refOp s (.append c)) = 0 := by
  unfold refOp RefOp.drops
  grind

-- What a step does to the holders of an item is what it does to the item's
-- reference count.
theorem step_held {a : Action ι} (ht : step s a = some t) (x : ι) :
    t.held x + RefOp.drops x (refOp s a) = s.held x + RefOp.adds x (refOp s a) := by
  cases a with
  | disp i =>
      obtain ⟨pc, hi, ht⟩ := Option.bind_eq_some_iff.mp ht
      obtain ⟨new, hs⟩ := dispatch_step ht
      rw [adds_eq_zero (by simp)]
      exact hs.held_add hi x
  | append c =>
      obtain ⟨new, hs⟩ := append_step ht
      rw [drops_eq_zero]
      exact hs.held_add rfl x
  | ctl =>
      rw [adds_eq_zero (by simp)]
      exact control_held ht x
  | appendLog c li =>
      obtain ⟨hc, hs⟩ := appendLog_step ht
      have hadd := hs.held_add hc x
      simp only [refOp, hc, RefOp.adds, RefOp.drops] at hadd ⊢
      exact hadd
  | start | stop =>
      simp only [step] at ht
      split_ifs at ht
      cases ht
      rfl
  | spurious =>
      obtain ⟨_, rfl, _⟩ := spurious_step ht
      rfl

-- A push is paid by what the call owes.
theorem append_owes {c : ℕ} (ht : append s c (s.appenders c) = some t) (x : ι) :
    t.held x + (t.appenders c).owes ≤ s.held x + (s.appenders c).owes := by
  have howes := (append_next ht).1
  obtain ⟨new, hs⟩ := append_step ht
  have hadd := hs.held_add rfl x
  have hnew : t.appenders c = new := by rw [hs.appenders, Function.update_self]
  cases hs.queue with
  | away hpush =>
      rw [refOp_append_eq_none hpush, RefOp.adds] at hadd
      · omega
      · simp
  | pushed li hpush _ _ hsig =>
      have hle : RefOp.adds x (refOp s (.append c)) ≤ 1 := by
        simp only [refOp, hpush, RefOp.adds]
        split_ifs <;> omega
      rw [hnew, hsig, hpush]
      simp only [Append.owes]
      omega

end AsrServiceProxy.Log.LogThread
