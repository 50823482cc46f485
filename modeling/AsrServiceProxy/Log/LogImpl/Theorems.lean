import AsrServiceProxy.Log.LogImpl
import AsrServiceProxy.Log.LogThread.Holders
import Mathlib.Algebra.Order.BigOperators.Group.Finset

namespace AsrServiceProxy.Log.LogImpl

open Counting Transition
open LogThread (RefOp Append)

variable {τ : Type*} {s s' : State τ}

-- The call holds its item up to its last `release`.
def Call.creates : Call τ → ℕ
  | .done => 0
  | _ => 1

def Call.Inside (t : Option τ) : Call τ → Prop
  | .inThread u _ => t = some u
  | .inOwn => t = none
  | _ => False

def Call.Distinct : Call τ → Prop
  | .visit rest => rest.Nodup
  | .inThread t rest => (t :: rest).Nodup
  | _ => True

def State.creates (s : State τ) (x : ℕ) : ℕ := (s.calls[x]?.map Call.creates).getD 0

theorem Call.Inside.creates_eq {t : Option τ} {c : Call τ} (h : c.Inside t) : c.creates = 1 := by
  cases c <;> first | rfl | exact h.elim

@[simp] theorem applyRef_calls (s : State τ) (op : Option (RefOp ℕ)) :
    (s.applyRef op).calls = s.calls := by
  rcases op with _ | _ | _ <;> rfl

@[simp] theorem applyRef_thrds (s : State τ) (op : Option (RefOp ℕ)) :
    (s.applyRef op).thrds = s.thrds := by
  rcases op with _ | _ | _ <;> rfl

theorem setCall_getElem? {x : ℕ} {c : Call τ} (hx : s.calls[x]? = some c) (c' : Call τ) (y : ℕ) :
    (s.setCall x c').calls[y]? = if y = x then some c' else s.calls[y]? := by
  have hlt := (List.getElem?_eq_some_iff.mp hx).1
  simp only [State.setCall, List.getElem?_set]
  by_cases he : y = x
  · simp [he, hlt]
  · simp [he, Ne.symm he]

section

variable [DecidableEq τ]

-- Whether the call may still enter the thread.
def Call.remaining (t : Option τ) : Call τ → ℕ
  | .lockThrds => 1
  | .visit rest | .inThread _ rest => if t ∈ none :: rest.map some then 1 else 0
  | .inOwn | .release | .done => 0

def State.remaining (s : State τ) (t : Option τ) (x : ℕ) : ℕ :=
  (s.calls[x]?.map (Call.remaining t)).getD 1

theorem remaining_le (t : Option τ) (u : τ) (rest : List τ) :
    (Call.visit rest).remaining t ≤ (Call.visit (u :: rest)).remaining t := by
  simp only [Call.remaining]
  split_ifs with hin hin'
  · rfl
  · simp only [List.map_cons, List.mem_cons, not_or] at hin hin'
    rcases hin with hn | hr
    · exact absurd hn hin'.1
    · exact absurd hr hin'.2.2
  · omega
  · rfl

theorem inside_appendLog {t : Option τ} {x : ℕ} (hs : s.inside t (.appendLog x x) = some s') :
    (s.threads t).appenders x = .idle ∧
      s' = { s with
        threads := Function.update s.threads t ((s.threads t).setAppend x (.test x)) } := by
  obtain ⟨thread, ht, rfl⟩ := Option.map_eq_some_iff.mp hs
  simp only [LogThread.step] at ht
  split at ht
  next hi =>
    cases ht
    exact ⟨hi, rfl⟩
  next => cases ht

end

variable [Fintype τ]

def State.holders (s : State τ) (x : ℕ) : ℕ := s.creates x + ∑ t, (s.threads t).held x

theorem held_le_holders (s : State τ) (t : Option τ) (x : ℕ) :
    (s.threads t).held x ≤ s.holders x := by
  have hle : (s.threads t).held x ≤ ∑ u, (s.threads u).held x :=
    Finset.single_le_sum (f := fun u => (s.threads u).held x) (fun _ _ => Nat.zero_le _)
      (Finset.mem_univ t)
  unfold State.holders
  omega

-- The reference count is the number of holders, and an item that was created
-- and has no holder left was deleted once.
def Counted (s : State τ) (x : ℕ) : Prop :=
  s.nRef x = s.holders x ∧
    s.deletes x = if x < s.calls.length ∧ s.holders x = 0 then 1 else 0

theorem Counted.same {x : ℕ} (h : Counted s x) (hlen : s'.calls.length = s.calls.length)
    (hh : s'.holders x = s.holders x) (hn : s'.nRef x = s.nRef x)
    (hd : s'.deletes x = s.deletes x) : Counted s' x := by
  unfold Counted
  rw [hlen, hh, hn, hd]
  exact h

theorem Counted.addRef {x : ℕ} (h : Counted s x) (hpos : 0 < s.holders x)
    (hh : s'.holders x = s.holders x + 1) (hn : s'.nRef x = s.nRef x + 1)
    (hd : s'.deletes x = s.deletes x) : Counted s' x := by
  obtain ⟨href, hdel⟩ := h
  have hlive : ¬(x < s.calls.length ∧ s.holders x = 0) := by omega
  have hlive' : ¬(x < s'.calls.length ∧ s'.holders x = 0) := by omega
  rw [if_neg hlive] at hdel
  refine ⟨?_, ?_⟩
  · rw [hn, href, hh]
    push_cast
    rfl
  · rw [if_neg hlive', hd, hdel]

theorem Counted.release {x : ℕ} (h : Counted s x) (hlt : x < s.calls.length)
    (hlen : s'.calls.length = s.calls.length) (hh : s'.holders x + 1 = s.holders x)
    (hn : s'.nRef x = s.nRef x - 1)
    (hd : s'.deletes x = if s.nRef x - 1 = 0 then s.deletes x + 1 else s.deletes x) :
    Counted s' x := by
  obtain ⟨href, hdel⟩ := h
  have hlive : ¬(x < s.calls.length ∧ s.holders x = 0) := by omega
  rw [if_neg hlive] at hdel
  refine ⟨by omega, ?_⟩
  rw [hd, hdel, hlen]
  by_cases hz : s'.holders x = 0
  · rw [if_pos (by omega), if_pos ⟨hlt, hz⟩]
  · rw [if_neg (by omega), if_neg (by omega)]

variable [DecidableEq τ]

structure Valid (s : State τ) : Prop where
  busy : ∀ t x, (s.threads t).appenders x ≠ .idle → ∃ c, s.calls[x]? = some c ∧ c.Inside t
  item : ∀ t x li, ((s.threads t).appenders x).item? = some li → li = x
  once : ∀ t x, (s.threads t).held x + s.remaining t x + ((s.threads t).appenders x).owes ≤ 1
  distinct : ∀ c ∈ s.calls, c.Distinct
  thrds : s.thrds.Nodup
  counted : ∀ x, Counted s x

theorem Valid.lt_of_held (hv : Valid s) {t : Option τ} {x : ℕ} (h : 0 < (s.threads t).held x) :
    x < s.calls.length := by
  by_contra hx
  have ho := hv.once t x
  have hr : s.remaining t x = 1 := by
    rw [State.remaining, List.getElem?_eq_none (Nat.le_of_not_lt hx)]
    rfl
  omega

-- A call that is inside a thread keeps its item alive.
theorem Valid.holders_pos_of_busy (hv : Valid s) {t : Option τ} {x : ℕ}
    (h : (s.threads t).appenders x ≠ .idle) : x < s.calls.length ∧ 0 < s.holders x := by
  obtain ⟨c, hc, hin⟩ := hv.busy t x h
  have hlt := (List.getElem?_eq_some_iff.mp hc).1
  have hone : s.creates x = 1 := by
    rw [State.creates, hc]
    exact hin.creates_eq
  unfold State.holders
  omega

-- A step that changes the holders of an item as it changes its reference count.
theorem Valid.counted_step (hv : Valid s) (op : Option (RefOp ℕ))
    (hlen : s'.calls.length = s.calls.length)
    (hh : ∀ x, s'.holders x + RefOp.drops x op = s.holders x + RefOp.adds x op)
    (hn : s'.nRef = (s.applyRef op).nRef) (hd : s'.deletes = (s.applyRef op).deletes)
    (hadd : ∀ x, op = some (.addRef x) → 0 < s.holders x)
    (hdrop : ∀ x, op = some (.release x) → x < s.calls.length) (x : ℕ) : Counted s' x := by
  have hc := hv.counted x
  have hx := hh x
  cases op with
  | none => exact hc.same hlen hx (congrFun hn x) (congrFun hd x)
  | some op =>
      cases op with
      | addRef y =>
          simp only [State.applyRef, State.addRef] at hn hd
          by_cases he : y = x
          · subst he
            simp only [RefOp.adds, RefOp.drops, if_true] at hx
            exact hc.addRef (hadd y rfl) hx (by simp [hn]) (by rw [hd])
          · simp only [RefOp.adds, RefOp.drops, if_neg he] at hx
            exact hc.same hlen hx (by simp [hn, Ne.symm he]) (by rw [hd])
      | release y =>
          simp only [State.applyRef, State.release] at hn hd
          by_cases he : y = x
          · subst he
            simp only [RefOp.adds, RefOp.drops, if_true] at hx
            refine hc.release (hdrop y rfl) hlen hx (by simp [hn]) ?_
            rw [hd]
            split_ifs <;> simp
          · simp only [RefOp.adds, RefOp.drops, if_neg he] at hx
            refine hc.same hlen hx (by simp [hn, Ne.symm he]) ?_
            rw [hd]
            split_ifs <;> simp [Ne.symm he]

theorem Valid.refOp_addRef (hv : Valid s) {t : Option τ} {a : LogThread.Action ℕ} {x : ℕ}
    (h : LogThread.refOp (s.threads t) a = some (.addRef x)) :
    a = .append x ∧ (s.threads t).appenders x ≠ .idle := by
  obtain ⟨y, ha, hp⟩ := LogThread.refOp_addRef h
  have hxy : x = y := hv.item t y x (by rw [hp]; rfl)
  subst hxy
  exact ⟨ha, by simp [hp]⟩

theorem Valid.adds_eq_zero (hv : Valid s) {t : Option τ} {a : LogThread.Action ℕ} {x : ℕ}
    (ha : a ≠ .append x) : RefOp.adds x (LogThread.refOp (s.threads t) a) = 0 := by
  unfold RefOp.adds
  split
  next y hy =>
    by_cases he : y = x
    · subst he
      exact absurd (hv.refOp_addRef hy).1 ha
    · rw [if_neg he]
  next => rfl

-- One step inside a thread, other than the entry of an `append_log` call.
theorem Valid.inside (hv : Valid s) {t : Option τ} {a : LogThread.Action ℕ}
    (ha : ∀ c li, a ≠ .appendLog c li) (hs : s.inside t a = some s') : Valid s' := by
  obtain ⟨thread, ht, rfl⟩ := Option.map_eq_some_iff.mp hs
  have happ : ∀ x, a ≠ .append x → thread.appenders x = (s.threads t).appenders x := by
    intro x hx
    exact LogThread.step_appenders ht x ⟨hx, ha x⟩
  have hbusy : ∀ x, a = .append x → (s.threads t).appenders x ≠ .idle := by
    rintro x rfl hi
    simp [LogThread.step, hi, LogThread.append] at ht
  constructor
  · intro u x hb
    by_cases hu : u = t
    · subst hu
      simp only [Function.update_self, applyRef_calls] at hb ⊢
      by_cases hx : a = .append x
      · exact hv.busy u x (hbusy x hx)
      · rw [happ x hx] at hb
        exact hv.busy u x hb
    · simp only [Function.update_of_ne hu, applyRef_calls] at hb ⊢
      exact hv.busy u x hb
  · intro u x li hl
    by_cases hu : u = t
    · subst hu
      simp only [Function.update_self] at hl
      by_cases hx : a = .append x
      · subst hx
        rcases (LogThread.append_next ht).2 with hsame | hnone
        · rw [hsame] at hl
          exact hv.item u x li hl
        · rw [hnone] at hl
          cases hl
      · rw [happ x hx] at hl
        exact hv.item u x li hl
    · simp only [Function.update_of_ne hu] at hl
      exact hv.item u x li hl
  · intro u x
    have ho := hv.once u x
    by_cases hu : u = t
    · subst hu
      simp only [Function.update_self, State.remaining, applyRef_calls] at ho ⊢
      by_cases hx : a = .append x
      · subst hx
        have howes := LogThread.append_owes ht x
        omega
      · have hheld := LogThread.step_held ht x
        rw [hv.adds_eq_zero hx] at hheld
        rw [happ x hx]
        omega
    · simp only [Function.update_of_ne hu, State.remaining, applyRef_calls] at ho ⊢
      exact ho
  · simp only [applyRef_calls]
    exact hv.distinct
  · simp only [applyRef_thrds]
    exact hv.thrds
  · refine hv.counted_step (LogThread.refOp (s.threads t) a) (by simp) ?_ rfl rfl ?_ ?_
    · intro x
      have hheld := LogThread.step_held ht x
      have hsum := sum_update (fun c => c.held x) s.threads t thread
      simp only [State.holders, State.creates, applyRef_calls] at hsum ⊢
      omega
    · intro x hx
      exact (hv.holders_pos_of_busy (hv.refOp_addRef hx).2).2
    · intro x hx
      have hheld := LogThread.step_held ht x
      rw [hx] at hheld
      simp only [RefOp.adds, RefOp.drops, if_true] at hheld
      exact hv.lt_of_held (t := t) (by omega)

-- `_lock_thrds`, the `stop` call and the list of threads only steer the calls.
theorem Valid.steer (hv : Valid s) (lockThrds : Option Owner) (stopper : Stop τ) {thrds : List τ}
    (hn : thrds.Nodup) :
    Valid { s with lockThrds := lockThrds, stopper := stopper, thrds := thrds } :=
  { hv with thrds := hn }

theorem Valid.distinct_set (hv : Valid s) {x : ℕ} {c' : Call τ} (hd : c'.Distinct) :
    ∀ c ∈ s.calls.set x c', c.Distinct := by
  intro c hc
  rcases List.mem_or_eq_of_mem_set hc with hc | rfl
  · exact hv.distinct c hc
  · exact hd

-- A call moves between threads.
theorem Valid.setCall (hv : Valid s) {x : ℕ} {c : Call τ} (c' : Call τ) (hx : s.calls[x]? = some c)
    (hcr : c'.creates = c.creates) (hd : c'.Distinct) (hrem : ∀ t, c'.remaining t ≤ c.remaining t)
    (hin : ∀ t, c.Inside t → (s.threads t).appenders x ≠ .idle → c'.Inside t) :
    Valid (s.setCall x c') := by
  have hget := setCall_getElem? hx c'
  refine ⟨?_, hv.item, ?_, hv.distinct_set hd, hv.thrds, ?_⟩
  · intro t y hb
    obtain ⟨b, hy, hb'⟩ := hv.busy t y hb
    rw [hget]
    by_cases he : y = x
    · subst he
      rw [hx] at hy
      cases hy
      exact ⟨c', by simp, hin t hb' hb⟩
    · exact ⟨b, by simp [he, hy], hb'⟩
  · intro t y
    have ho := hv.once t y
    simp only [State.remaining, hget] at ho ⊢
    by_cases he : y = x
    · subst he
      have hr := hrem t
      simp only [hx, if_true, Option.map_some, Option.getD_some] at ho ⊢
      have hsame : (s.setCall y c').threads = s.threads := rfl
      rw [hsame]
      omega
    · simp only [if_neg he]
      exact ho
  · intro y
    refine (hv.counted y).same (by simp [State.setCall]) ?_ rfl rfl
    simp only [State.holders, State.creates, hget]
    by_cases he : y = x
    · subst he
      simp [hx, hcr, State.setCall]
    · simp [he, State.setCall]

-- A call enters the thread `t`.
theorem Valid.enter (hv : Valid s) {x : ℕ} {t : Option τ} {c : Call τ} (c' : Call τ)
    (hx : s.calls[x]? = some c) (hs : s.inside t (.appendLog x x) = some s')
    (hcr : c'.creates = c.creates) (hd : c'.Distinct) (hrem : ∀ u, c'.remaining u ≤ c.remaining u)
    (hpay : c'.remaining t + 1 ≤ c.remaining t) (hout : ∀ u, ¬c.Inside u) (hin : c'.Inside t) :
    Valid (s'.setCall x c') := by
  obtain ⟨hi, rfl⟩ := inside_appendLog hs
  have hget : ∀ y, (s.calls.set x c')[y]? = if y = x then some c' else s.calls[y]? :=
    setCall_getElem? hx c'
  -- in the other threads the call is not inside, and other calls stay where they are
  have happ : ∀ u y, (u = t ∧ y = x) ∨
      (Function.update s.threads t ((s.threads t).setAppend x (.test x)) u).appenders y =
        (s.threads u).appenders y := by
    intro u y
    by_cases hu : u = t
    · subst hu
      by_cases hy : y = x
      · exact .inl ⟨rfl, hy⟩
      · exact .inr (by simp [LogThread.State.setAppend, hy])
    · exact .inr (by simp [hu])
  have hheld : ∀ u y,
      (Function.update s.threads t ((s.threads t).setAppend x (.test x)) u).held y =
        (s.threads u).held y := by
    intro u y
    by_cases hu : u = t
    · subst hu
      simp [LogThread.State.held, LogThread.State.setAppend]
    · simp [hu]
  refine ⟨?_, ?_, ?_, hv.distinct_set hd, hv.thrds, ?_⟩
  · intro u y hb
    simp only [State.setCall, hget] at hb ⊢
    rcases happ u y with ⟨rfl, rfl⟩ | hsame
    · exact ⟨c', by simp, hin⟩
    · rw [hsame] at hb
      obtain ⟨b, hy, hb'⟩ := hv.busy u y hb
      by_cases he : y = x
      · subst he
        rw [hx] at hy
        cases hy
        exact absurd hb' (hout u)
      · exact ⟨b, by simp [he, hy], hb'⟩
  · intro u y li hl
    simp only [State.setCall] at hl
    rcases happ u y with ⟨rfl, rfl⟩ | hsame
    · simp only [Function.update_self, LogThread.State.setAppend, Append.item?,
        Option.some.injEq] at hl
      exact hl.symm
    · rw [hsame] at hl
      exact hv.item u y li hl
  · intro u y
    have ho := hv.once u y
    simp only [State.setCall, State.remaining, hget, hheld] at ho ⊢
    rcases happ u y with ⟨rfl, rfl⟩ | hsame
    · simp only [hx, if_true, Option.map_some, Option.getD_some, Function.update_self,
        LogThread.State.setAppend, Append.owes] at ho ⊢
      omega
    · rw [hsame]
      by_cases he : y = x
      · subst he
        have hr := hrem u
        simp only [hx, if_true, Option.map_some, Option.getD_some] at ho ⊢
        omega
      · simp only [if_neg he]
        exact ho
  · intro y
    refine (hv.counted y).same (by simp [State.setCall]) ?_ rfl rfl
    simp only [State.holders, State.setCall, State.creates, hget, hheld]
    by_cases he : y = x
    · subst he
      simp [hx, hcr]
    · simp [he]

-- The last step of a call drops its reference.
theorem Valid.finish (hv : Valid s) {x : ℕ} (hx : s.calls[x]? = some .release) :
    Valid ((s.release x).setCall x .done) := by
  have hget : ∀ y, (s.calls.set x .done)[y]? = if y = x then some .done else s.calls[y]? :=
    setCall_getElem? hx .done
  refine ⟨?_, hv.item, ?_, hv.distinct_set trivial, hv.thrds, ?_⟩
  · intro t y hb
    obtain ⟨b, hy, hb'⟩ := hv.busy t y hb
    have he : y ≠ x := by
      rintro rfl
      rw [hx] at hy
      cases hy
      exact hb'
    simp only [State.setCall, State.release, hget]
    exact ⟨b, by simp [he, hy], hb'⟩
  · intro t y
    have ho := hv.once t y
    simp only [State.setCall, State.release, State.remaining, hget] at ho ⊢
    by_cases he : y = x
    · subst he
      simp only [hx, if_true, Option.map_some, Option.getD_some, Call.remaining] at ho ⊢
      exact ho
    · simp only [if_neg he]
      exact ho
  · refine hv.counted_step (some (.release x)) (by simp [State.setCall, State.release]) ?_ rfl rfl
      (by simp) ?_
    · intro y
      simp only [State.holders, State.creates, State.setCall, State.release, hget, RefOp.drops,
        RefOp.adds]
      by_cases he : y = x
      · subst he
        simp only [hx, if_true, Option.map_some, Option.getD_some, Call.creates]
        omega
      · simp [he, Ne.symm he]
    · rintro y ⟨⟩
      exact (List.getElem?_eq_some_iff.mp hx).1

theorem Valid.create (hv : Valid s) : Valid { s with
    calls := s.calls ++ [.lockThrds]
    nRef := Function.update s.nRef s.calls.length 1 } := by
  have hget : ∀ y, (s.calls ++ [Call.lockThrds])[y]? =
      if y = s.calls.length then some .lockThrds else s.calls[y]? := by
    intro y
    rw [List.getElem?_append, List.getElem?_singleton]
    grind
  refine ⟨?_, hv.item, ?_, ?_, hv.thrds, ?_⟩
  · intro t y hb
    obtain ⟨b, hy, hb'⟩ := hv.busy t y hb
    have hlt := (List.getElem?_eq_some_iff.mp hy).1
    refine ⟨b, ?_, hb'⟩
    rw [hget, if_neg (by omega)]
    exact hy
  · intro t y
    have ho := hv.once t y
    simp only [State.remaining, hget] at ho ⊢
    by_cases he : y = s.calls.length
    · subst he
      simp only [List.getElem?_eq_none (Nat.le_refl _), Option.map_none, Option.getD_none, if_true,
        Option.map_some, Option.getD_some, Call.remaining] at ho ⊢
      exact ho
    · simp only [if_neg he]
      exact ho
  · intro c hc
    rcases List.mem_append.mp hc with hc | hc
    · exact hv.distinct c hc
    · rw [List.mem_singleton.mp hc]
      trivial
  · intro y
    obtain ⟨href, hdel⟩ := hv.counted y
    by_cases he : y = s.calls.length
    · subst he
      have hheld : ∑ t, (s.threads t).held s.calls.length = 0 := by
        apply Finset.sum_eq_zero
        intro t _
        by_contra hne
        have hlt := hv.lt_of_held (Nat.pos_of_ne_zero hne)
        omega
      constructor
      · simp [State.holders, State.creates, Call.creates, hheld]
      · rw [if_neg (by omega)] at hdel
        rw [if_neg]
        · exact hdel
        · simp [State.holders, State.creates, Call.creates]
    · have hsame : State.holders { s with
          calls := s.calls ++ [.lockThrds]
          nRef := Function.update s.nRef s.calls.length 1 } y = s.holders y := by
        simp only [State.holders, State.creates, hget, if_neg he]
      have hlt : y < s.calls.length + 1 ↔ y < s.calls.length := by omega
      constructor
      · rw [hsame]
        simpa [he] using href
      · rw [hsame]
        simpa [hlt] using hdel

theorem Valid.appendLog (hv : Valid s) {x : ℕ} {isMatch : Bool} {c : Call τ}
    (hx : s.calls[x]? = some c) (hs : appendLog s x isMatch c = some s') : Valid s' := by
  have hdist := hv.distinct c (List.mem_of_getElem? hx)
  cases c with
  | done => cases hs
  | release =>
      cases hs
      exact hv.finish hx
  | lockThrds =>
      simp only [LogImpl.appendLog] at hs
      split_ifs at hs
      cases hs
      have hv' := hv.steer (some (.call x)) s.stopper hv.thrds
      refine hv'.setCall (.visit s.thrds) hx rfl hv.thrds ?_ (fun _ h => h.elim)
      intro t
      simp only [Call.remaining]
      split_ifs <;> omega
  | inThread u rest =>
      simp only [LogImpl.appendLog] at hs
      split_ifs at hs with hi
      cases hs
      refine hv.setCall (.visit rest) hx rfl (List.nodup_cons.mp hdist).2
        (fun _ => Nat.le_refl _) ?_
      rintro t rfl hb
      exact absurd hi hb
  | inOwn =>
      simp only [LogImpl.appendLog] at hs
      split_ifs at hs with hi
      cases hs
      have hv' := hv.steer none s.stopper hv.thrds
      refine hv'.setCall .release hx rfl trivial (fun _ => Nat.le_refl _) ?_
      rintro t rfl hb
      exact absurd hi hb
  | visit rest =>
      cases rest with
      | nil =>
          obtain ⟨u, hu, rfl⟩ := Option.map_eq_some_iff.mp hs
          exact hv.enter .inOwn hx hu rfl trivial (fun _ => Nat.zero_le _)
            (by simp [Call.remaining]) (fun _ => id) rfl
      | cons u rest =>
          cases isMatch with
          | true =>
              obtain ⟨v, hu, rfl⟩ := Option.map_eq_some_iff.mp hs
              refine hv.enter (.inThread u rest) hx hu rfl hdist (remaining_le · u rest) ?_
                (fun _ => id) rfl
              have hnot := (List.nodup_cons.mp hdist).1
              simp [Call.remaining, hnot]
          | false =>
              cases hs
              exact hv.setCall (.visit rest) hx rfl (List.nodup_cons.mp hdist).2
                (remaining_le · u rest) (fun _ => False.elim)

theorem Valid.stop (hv : Valid s) {pc : Stop τ} (hs : stop s pc = some s') : Valid s' := by
  cases pc with
  | idle => cases hs
  | inThread | inDestroy =>
      simp only [LogImpl.stop] at hs
      split_ifs at hs
      cases hs
      exact hv.steer s.lockThrds _ hv.thrds
  | inOwn =>
      simp only [LogImpl.stop] at hs
      split_ifs at hs
      cases hs
      exact hv.steer none .idle hv.thrds
  | destroy | own =>
      obtain ⟨u, hu, rfl⟩ := Option.map_eq_some_iff.mp hs
      have hv' := hv.inside (by simp) hu
      exact hv'.steer u.lockThrds _ hv'.thrds
  | visit rest =>
      cases rest with
      | nil =>
          cases hs
          exact hv.steer s.lockThrds .own List.nodup_nil
      | cons t rest =>
          obtain ⟨u, hu, rfl⟩ := Option.map_eq_some_iff.mp hs
          have hv' := hv.inside (by simp) hu
          exact hv'.steer u.lockThrds _ hv'.thrds

theorem Valid.step (hv : Valid s) {a : Action τ} (hs : step s a = some s') : Valid s' := by
  cases a with
  | appendLog =>
      cases hs
      exact hv.create
  | call x isMatch =>
      obtain ⟨c, hx, hs⟩ := Option.bind_eq_some_iff.mp hs
      exact hv.appendLog hx hs
  | thread t a =>
      cases a with
      | appendLog => cases hs
      | _ => exact hv.inside (by simp) hs
  | stop =>
      simp only [LogImpl.step] at hs
      split_ifs at hs
      cases hs
      exact hv.steer (some .stop) (.visit s.thrds) hv.thrds
  | stopper => exact hv.stop hs

theorem constructed_valid {thrds : List τ} (hn : thrds.Nodup) (pThread : Option τ → Bool) :
    Valid (constructed thrds pThread) where
  busy _ _ h := absurd rfl h
  item _ _ _ h := by cases h
  once _ _ := by simp [constructed, State.remaining, LogThread.State.held, LogThread.constructed,
    Append.owes]
  distinct _ h := by cases h
  thrds := hn
  counted x := by
    have hz : (constructed thrds pThread).holders x = 0 := by
      simp [State.holders, State.creates, constructed, LogThread.State.held, LogThread.constructed]
    constructor
    · rw [hz]
      rfl
    · simp [constructed]

theorem reachable_valid (h : (system τ).Reachable s) : Valid s := by
  refine System.Reachable.invariant (S := system τ) ?_ ?_ h
  · intro s hinit
    obtain ⟨thrds, pThread, hn, rfl⟩ := hinit
    exact constructed_valid hn pThread
  · intro s a t hv hs
    exact hv.step hs

-- The queues that contain the item.
def State.queues (s : State τ) (x : ℕ) : ℕ :=
  (Finset.univ.filter fun t => x ∈ (s.threads t).logs).card

-- The dispatchers that have popped the item and have not released it.
def State.dispatching (s : State τ) (x : ℕ) : ℕ :=
  ∑ t, (s.threads t).dispatchers.countP fun d => d.item? = some x

theorem Valid.holders_eq (hv : Valid s) (x : ℕ) :
    s.holders x = s.creates x + s.queues x + s.dispatching x := by
  have hcount : ∀ t, (s.threads t).logs.count x = if x ∈ (s.threads t).logs then 1 else 0 := by
    intro t
    have ho := hv.once t x
    have hle : (s.threads t).logs.count x ≤ 1 := by
      simp only [LogThread.State.held] at ho
      omega
    split_ifs with hm
    · have hpos := List.count_pos_iff.mpr hm
      omega
    · exact List.count_eq_zero.mpr hm
  have hsum : ∑ t, (s.threads t).held x = s.queues x + s.dispatching x := by
    simp only [LogThread.State.held, State.queues, State.dispatching, Finset.sum_add_distrib,
      Finset.card_filter, hcount]
    congr 1
    apply Finset.sum_congr rfl
    intro t _
    exact total_ite _ _
  unfold State.holders
  omega

def Delivers (thread : LogThread.State ℕ) (x : ℕ) : Prop :=
  .receive x ∈ thread.dispatchers ∨ ∃ c, thread.appenders c = .receive x

theorem Valid.live_of_delivers (hv : Valid s) {t : Option τ} {x : ℕ}
    (h : Delivers (s.threads t) x) : x < s.calls.length ∧ 0 < s.holders x := by
  rcases h with hd | ⟨c, hc⟩
  · obtain ⟨i, hi⟩ := List.mem_iff_getElem?.mp hd
    have hone := le_total (LogThread.Disp.holds x) (s.threads t).dispatchers i _ hi
    have hheld : 0 < (s.threads t).held x := by
      simp only [LogThread.Disp.holds, LogThread.Disp.item?, if_true] at hone
      unfold LogThread.State.held
      omega
    have hle := held_le_holders s t x
    exact ⟨hv.lt_of_held hheld, by omega⟩
  · have hxc : x = c := hv.item t c x (by rw [hc]; rfl)
    subst hxc
    exact hv.holders_pos_of_busy (t := t) (by simp [hc])

theorem item_lifetime (h : (system τ).Reachable s) :
    (∀ x, x < s.calls.length → s.deletes x = 0 →
      s.nRef x = s.creates x + s.queues x + s.dispatching x) ∧
    (∀ x, x < s.calls.length →
      s.deletes x = if s.creates x + s.queues x + s.dispatching x = 0 then 1 else 0) ∧
    (∀ t x, Delivers (s.threads t) x → x < s.calls.length ∧ s.deletes x = 0) := by
  have hv := reachable_valid h
  refine ⟨?_, ?_, ?_⟩
  · intro x _ _
    rw [(hv.counted x).1, hv.holders_eq x]
    push_cast
    rfl
  · intro x hx
    rw [(hv.counted x).2, hv.holders_eq x]
    simp [hx]
  · intro t x hd
    obtain ⟨hlt, hpos⟩ := hv.live_of_delivers hd
    refine ⟨hlt, ?_⟩
    rw [(hv.counted x).2, if_neg (by omega)]

-- One dedicated thread, started, and one item that it has queued. The call has
-- returned and the dispatcher hands the item to the receivers.
def delivery : List (Action Unit) :=
  [.thread (some ()) .start, .thread (some ()) .ctl, .thread (some ()) .ctl, .thread (some ()) .ctl,
    .thread (some ()) .ctl, .thread (some ()) .ctl, .thread (some ()) (.disp 0),
    .thread (some ()) (.disp 0), .appendLog, .call 0 true, .call 0 true,
    .thread (some ()) (.append 0), .thread (some ()) (.append 0), .thread (some ()) (.append 0),
    .thread (some ()) (.append 0), .thread (some ()) (.append 0), .call 0 true, .call 0 true,
    .thread none (.append 0), .thread none (.append 0), .thread none (.append 0), .call 0 true,
    .call 0 true, .thread (some ()) (.disp 0), .thread (some ()) (.disp 0),
    .thread (some ()) (.disp 0), .thread (some ()) (.disp 0), .thread (some ()) (.disp 0)]

theorem item_lifetime_delivery : ∃ s, (system Unit).Reachable s ∧ s.calls = [.done] ∧
    Delivers (s.threads (some ())) 0 ∧ s.deletes 0 = 0 ∧ s.nRef 0 = 1 ∧
    s.nRef 0 = s.creates 0 + s.queues 0 + s.dispatching 0 := by
  obtain ⟨s, hs⟩ : ∃ s, (system Unit).run (constructed [()] fun _ => false) delivery = some s :=
    ⟨_, rfl⟩
  have hreach : (system Unit).Reachable s :=
    System.Reachable.run (.init ⟨[()], fun _ => false, by simp, rfl⟩) hs
  have hcalls : s.calls = [.done] := by
    cases hs
    rfl
  have hdel : Delivers (s.threads (some ())) 0 := by
    cases hs
    exact .inl (by decide)
  have href : s.nRef 0 = 1 := by
    cases hs
    rfl
  obtain ⟨hcount, _, hlive⟩ := item_lifetime hreach
  obtain ⟨hlt, hz⟩ := hlive _ _ hdel
  exact ⟨s, hreach, hcalls, hdel, hz, href, hcount 0 hlt hz⟩

end AsrServiceProxy.Log.LogImpl
