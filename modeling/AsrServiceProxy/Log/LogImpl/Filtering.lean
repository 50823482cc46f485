import AsrServiceProxy.Log.LogImpl
import AsrServiceProxy.Log.LogThread.Holders
import AsrServiceProxy.Log.Receivers.Theorems

-- Which receivers see which items.
namespace AsrServiceProxy.Log

open Receivers Transition

namespace LogThread

-- The item that a step hands to `do_dispatch`.
def delivering {ι : Type*} (s : State ι) : Action ι → Option ι
  | .disp i =>
      match s.dispatchers[i]? with
      | some (.receive li) => some li
      | _ => none
  | .append c =>
      match s.appenders c with
      | .receive li => some li
      | _ => none
  | _ => none

variable {ι : Type*} {P : ι → Prop} {s t : State ι}

-- Every item in the thread satisfies `P`: queued, with a dispatcher or with a call.
structure Carries (P : ι → Prop) (s : State ι) : Prop where
  logs : ∀ li ∈ s.logs, P li
  dispatchers : ∀ d ∈ s.dispatchers, ∀ li, d.item? = some li → P li
  appenders : ∀ c li, (s.appenders c).item? = some li → P li

theorem Carries.dispatch (h : Carries P s) {i : ℕ} {pc : Disp ι} (hi : s.dispatchers[i]? = some pc)
    (ht : dispatch s i pc = some t) : Carries P t := by
  obtain ⟨new, hs⟩ := dispatch_step ht
  have hold := h.dispatchers pc (List.mem_of_getElem? hi)
  have hset : (∀ li, new.item? = some li → P li) →
      ∀ d ∈ t.dispatchers, ∀ li, d.item? = some li → P li := by
    intro hnew d hd
    rw [hs.dispatchers] at hd
    rcases List.mem_or_eq_of_mem_set hd with hd | rfl
    · exact h.dispatchers d hd
    · exact hnew
  have happ : ∀ c li, (t.appenders c).item? = some li → P li := by
    rw [hs.appenders]
    exact h.appenders
  cases hs.queue with
  | away hpop hlogs hsync hitem =>
      refine ⟨hlogs ▸ h.logs, hset ?_, happ⟩
      intro li hli
      rcases hitem with ⟨-, hsame⟩ | ⟨li', -, hnone⟩
      · exact hold li (hsame ▸ hli)
      · rw [hnone] at hli
        cases hli
  | empty hpop hs' hlogs hsync hnew =>
      refine ⟨?_, hset ?_, happ⟩
      · rw [hlogs]
        intro li hli
        cases hli
      · intro li hli
        rw [hnew] at hli
        cases hli
  | popped li hpop hlogs hsync hnew =>
      have hall := h.logs
      rw [hlogs, List.forall_mem_cons] at hall
      refine ⟨hall.2, hset ?_, happ⟩
      intro li' hli
      rw [hnew] at hli
      cases hli
      exact hall.1

theorem Carries.append (h : Carries P s) {c : ℕ} (ht : append s c (s.appenders c) = some t) :
    Carries P t := by
  obtain ⟨new, hs⟩ := append_step ht
  refine ⟨?_, ?_, ?_⟩
  · cases hs.queue with
    | away hpush hlogs hsync => exact hlogs ▸ h.logs
    | pushed li hpush hlogs hsync hnew =>
        rw [hlogs]
        intro li' hli
        rcases List.mem_append.mp hli with hli | hli
        · exact h.logs li' hli
        · rw [List.mem_singleton.mp hli]
          exact h.appenders c li (by rw [hpush]; rfl)
  · rw [hs.dispatchers]
    exact h.dispatchers
  · intro d li hli
    by_cases hd : d = c
    · subst hd
      rcases (append_next ht).2 with hsame | hnone
      · exact h.appenders d li (hsame ▸ hli)
      · rw [hnone] at hli
        cases hli
    · rw [hs.appenders, Function.update_of_ne hd] at hli
      exact h.appenders d li hli

theorem Carries.control (h : Carries P s) (hs : ControlStep s t) : Carries P t := by
  refine ⟨?_, ?_, ?_⟩
  · rcases hs.queue with hsame | ⟨li, -, hlogs⟩
    · exact hsame ▸ h.logs
    · have hall := h.logs
      rw [hlogs, List.forall_mem_cons] at hall
      exact hall.2
  · rcases hs.dispatchers with hsame | hnew
    · exact hsame ▸ h.dispatchers
    · rw [hnew]
      intro d hd
      rcases List.mem_append.mp hd with hd | hd
      · exact h.dispatchers d hd
      · rw [List.mem_singleton.mp hd]
        intro li hli
        cases hli
  · rw [hs.appenders]
    exact h.appenders

-- A thread has only the items that were handed to it.
theorem Carries.step (h : Carries P s) {a : Action ι} (hnew : ∀ c li, a = .appendLog c li → P li)
    (ht : step s a = some t) : Carries P t := by
  cases a with
  | disp i =>
      obtain ⟨pc, hi, ht⟩ := Option.bind_eq_some_iff.mp ht
      exact h.dispatch hi ht
  | append c => exact h.append ht
  | appendLog c li =>
      obtain ⟨-, hs⟩ := appendLog_step ht
      refine ⟨?_, ?_, ?_⟩
      · simp only [LogThread.step] at ht
        split at ht <;> cases ht
        exact h.logs
      · rw [hs.dispatchers]
        exact h.dispatchers
      · intro d li' hli
        by_cases hd : d = c
        · subst hd
          rw [hs.appenders, Function.update_self] at hli
          cases hli
          exact hnew d li rfl
        · rw [hs.appenders, Function.update_of_ne hd] at hli
          exact h.appenders d li' hli
  | start | stop => exact h.control (call_step (by simp) ht)
  | ctl => exact h.control (control_step ht)
  | spurious => exact h.control (spurious_step ht).2.2

theorem Carries.delivering (h : Carries P s) {a : Action ι} {li : ι}
    (hd : delivering s a = some li) : P li := by
  cases a with
  | disp i =>
      simp only [LogThread.delivering] at hd
      split at hd
      next li' hi =>
        cases hd
        exact h.dispatchers _ (List.mem_of_getElem? hi) li rfl
      next => cases hd
  | append c =>
      simp only [LogThread.delivering] at hd
      split at hd
      next li' hc =>
        cases hd
        exact h.appenders c li (by rw [hc]; rfl)
      next => cases hd
  | _ => cases hd

end LogThread

namespace LogImpl

section

variable {κ : Type*} (regexec : String → String → Bool) (receiveLog : κ → LogItem → ℤ)
  (items : ℕ → LogItem) (reg : Registry κ)

-- The dedicated threads are numbered by their place in `_thrds`.
def recvsOf : Option ℕ → List (LogReceiver κ)
  | none => reg.main
  | some i => reg.thrds[i]?.getD []

-- The callbacks that a step makes, with the item that they get.
def callbacks (s : State ℕ) : Action ℕ → List (LogReceiver κ × LogItem)
  | .thread t a =>
      match LogThread.delivering (s.threads t) a with
      | some x => (doDispatch receiveLog (items x) (recvsOf reg t)).map fun r => (r, items x)
      | none => []
  | _ => []

-- The answer of `th->match(li)` is that of the thread that the call visits.
def answers (s : State ℕ) : Action ℕ → Bool
  | .call x isMatch =>
      match s.calls[x]? with
      | some (.visit (t :: _)) =>
          isMatch = Receivers.isMatch regexec (recvsOf reg (some t)) (items x)
      | _ => true
  | _ => true

-- `called` has the callbacks that were made so far.
structure Logged (κ : Type*) where
  impl : State ℕ
  called : List (LogReceiver κ × LogItem)

def loggedStep (s : Logged κ) (a : Action ℕ) : Option (Logged κ) :=
  if answers regexec items reg s.impl a then
    (step s.impl a).map fun t =>
      { impl := t, called := s.called ++ callbacks receiveLog items reg s.impl a }
  else none

def logged : System (Logged κ) (Action ℕ) where
  init s := ∃ pThread,
    s = { impl := constructed (List.range reg.thrds.length) pThread, called := [] }
  step := loggedStep regexec receiveLog items reg

-- The condition on one step: where the `CLogImpl` dispatches an item itself, each
-- receiver of its own list matches it that has only callbacks that return 0 in front of it.
def MainMatches (s : Logged κ) : Action ℕ → Prop
  | .thread none a =>
      ∀ x, LogThread.delivering (s.impl.threads none) a = some x →
        ∀ front r rest, reg.main = front ++ r :: rest →
          (∀ q ∈ front, receiveLog q.recv (items x) = 0) → r.isMatch regexec (items x)
  | _ => True

end

section

variable {κ : Type*} {regexec : String → String → Bool} {receiveLog : κ → LogItem → ℤ}
  {items : ℕ → LogItem} {reg : Registry κ} {s t : State ℕ}

-- A dedicated thread has only items that it matches.
def Filtered (regexec : String → String → Bool) (items : ℕ → LogItem) (reg : Registry κ)
    (s : State ℕ) : Prop :=
  ∀ i, LogThread.Carries (fun x => Receivers.isMatch regexec (recvsOf reg (some i)) (items x))
    (s.threads (some i))

theorem Filtered.of_threads (h : Filtered regexec items reg s) (ht : t.threads = s.threads) :
    Filtered regexec items reg t := by
  unfold Filtered
  rw [ht]
  exact h

theorem Filtered.inside (h : Filtered regexec items reg s) {u : Option ℕ}
    {a : LogThread.Action ℕ} (hs : s.inside u a = some t)
    (hnew : ∀ i c x, u = some i → a = .appendLog c x →
      Receivers.isMatch regexec (recvsOf reg (some i)) (items x)) :
    Filtered regexec items reg t := by
  obtain ⟨thread, hstep, rfl⟩ := Option.map_eq_some_iff.mp hs
  intro i
  by_cases hu : some i = u
  · subst hu
    simp only [Function.update_self]
    exact (h i).step (fun c x ha => hnew i c x rfl ha) hstep
  · simp only [Function.update_of_ne hu]
    exact h i

theorem Filtered.appendLog (h : Filtered regexec items reg s) {x : ℕ} {isMatch : Bool}
    {c : Call ℕ} (hx : s.calls[x]? = some c)
    (hans : answers regexec items reg s (.call x isMatch))
    (hs : appendLog s x isMatch c = some t) : Filtered regexec items reg t := by
  cases c with
  | lockThrds =>
      simp only [LogImpl.appendLog] at hs
      split_ifs at hs
      cases hs
      exact h.of_threads rfl
  | visit rest =>
      cases rest with
      | nil =>
          obtain ⟨u, hu, rfl⟩ := Option.map_eq_some_iff.mp hs
          refine Filtered.of_threads (h.inside hu ?_) rfl
          intro i c' x' hi
          cases hi
      | cons i rest =>
          simp only [LogImpl.appendLog] at hs
          simp only [answers, hx, decide_eq_true_eq] at hans
          split_ifs at hs with hmatch
          · obtain ⟨u, hu, rfl⟩ := Option.map_eq_some_iff.mp hs
            refine Filtered.of_threads (h.inside hu ?_) rfl
            intro j c' x' hj ha
            cases hj
            cases ha
            rw [← hans]
            exact hmatch
          · cases hs
            exact h.of_threads rfl
  | inThread i rest =>
      simp only [LogImpl.appendLog] at hs
      split_ifs at hs
      cases hs
      exact h.of_threads rfl
  | inOwn =>
      simp only [LogImpl.appendLog] at hs
      split_ifs at hs
      cases hs
      exact h.of_threads rfl
  | release =>
      cases hs
      exact h.of_threads rfl
  | done => cases hs

theorem Filtered.stop (h : Filtered regexec items reg s) {pc : Stop ℕ}
    (hs : stop s pc = some t) : Filtered regexec items reg t := by
  cases pc with
  | idle => cases hs
  | visit rest =>
      cases rest with
      | nil =>
          cases hs
          exact h.of_threads rfl
      | cons i rest =>
          obtain ⟨u, hu, rfl⟩ := Option.map_eq_some_iff.mp hs
          exact Filtered.of_threads (h.inside hu nofun) rfl
  | destroy i rest | own =>
      obtain ⟨u, hu, rfl⟩ := Option.map_eq_some_iff.mp hs
      exact Filtered.of_threads (h.inside hu nofun) rfl
  | inThread i rest | inDestroy i rest | inOwn =>
      simp only [LogImpl.stop] at hs
      split_ifs at hs
      cases hs
      exact h.of_threads rfl

theorem Filtered.step (h : Filtered regexec items reg s) {a : Action ℕ}
    (hans : answers regexec items reg s a) (hs : step s a = some t) :
    Filtered regexec items reg t := by
  cases a with
  | appendLog =>
      cases hs
      exact h.of_threads rfl
  | call x isMatch =>
      obtain ⟨c, hx, hs⟩ := Option.bind_eq_some_iff.mp hs
      exact h.appendLog hx hans hs
  | thread u a =>
      simp only [LogImpl.step] at hs
      split at hs
      next => cases hs
      next a hne =>
        refine h.inside hs ?_
        intro i c x hi ha
        exact absurd ha (hne c x)
  | stop =>
      simp only [LogImpl.step] at hs
      split_ifs at hs
      cases hs
      exact h.of_threads rfl
  | stopper => exact h.stop hs

theorem constructed_filtered (thrds : List ℕ) (pThread : Option ℕ → Bool) :
    Filtered regexec items reg (constructed thrds pThread) := by
  intro i
  refine ⟨?_, ?_, ?_⟩
  · intro x hx
    cases hx
  · intro d hd
    cases hd
  · intro c x hx
    cases hx

-- `do_dispatch` reaches a receiver when every callback in front of it returns 0.
theorem mem_doDispatch_iff {r : LogReceiver κ} {li : LogItem} {recvs : List (LogReceiver κ)} :
    r ∈ doDispatch receiveLog li recvs ↔
      ∃ front rest, recvs = front ++ r :: rest ∧ ∀ q ∈ front, receiveLog q.recv li = 0 := by
  induction recvs with
  | nil => simp [doDispatch]
  | cons q recvs ih =>
      rw [doDispatch, List.mem_cons]
      constructor
      · rintro (rfl | h)
        · exact ⟨[], recvs, rfl, nofun⟩
        · split_ifs at h with hzero
          · cases h
          · obtain ⟨front, rest, rfl, hfront⟩ := ih.mp h
            exact ⟨q :: front, rest, rfl,
              List.forall_mem_cons.mpr ⟨not_not.mp hzero, hfront⟩⟩
      · rintro ⟨front, rest, hsplit, hfront⟩
        cases front with
        | nil => exact .inl (List.cons.inj hsplit).1.symm
        | cons p front =>
            obtain ⟨rfl, rfl⟩ := List.cons.inj hsplit
            rw [List.forall_mem_cons] at hfront
            rw [if_neg (not_not_intro hfront.1)]
            exact .inr (ih.mpr ⟨front, rest, rfl, hfront.2⟩)

theorem mem_of_mem_doDispatch {r : LogReceiver κ} {li : LogItem} {recvs : List (LogReceiver κ)}
    (h : r ∈ doDispatch receiveLog li recvs) : r ∈ recvs := by
  obtain ⟨front, rest, rfl, -⟩ := mem_doDispatch_iff.mp h
  exact List.mem_append_right _ List.mem_cons_self

-- A dedicated thread has one receiver, so what the thread matches the receiver does.
theorem recvsOf_isMatch [DecidableEq κ] (hreg : Receivers.Valid reg) {i : ℕ} {li : LogItem}
    (h : Receivers.isMatch regexec (recvsOf reg (some i)) li) {r : LogReceiver κ}
    (hr : r ∈ recvsOf reg (some i)) : r.isMatch regexec li := by
  cases hi : reg.thrds[i]? with
  | none =>
      simp only [recvsOf, hi, Option.getD_none] at hr
      cases hr
  | some th =>
      obtain ⟨lr, rfl, -⟩ := hreg.single th (List.mem_of_getElem? hi)
      simp only [recvsOf, hi, Option.getD_some, List.mem_singleton] at hr
      simp only [recvsOf, hi, Option.getD_some, Receivers.isMatch, List.any_cons, List.any_nil,
        Bool.or_false] at h
      rw [hr]
      exact h

theorem callbacks_match_iff [DecidableEq κ] (hreg : Receivers.Valid reg) {s : Logged κ}
    (h : Filtered regexec items reg s.impl) (a : Action ℕ) :
    (∀ p ∈ callbacks receiveLog items reg s.impl a, p.1.isMatch regexec p.2) ↔
      MainMatches regexec receiveLog items reg s a := by
  cases a with
  | appendLog | call | stop | stopper => exact iff_of_true nofun trivial
  | thread u a =>
      cases hd : LogThread.delivering (s.impl.threads u) a with
      | none =>
          simp only [callbacks, hd]
          cases u with
          | none =>
              refine iff_of_true nofun ?_
              intro x hx
              rw [hd] at hx
              cases hx
          | some i => exact iff_of_true nofun trivial
      | some x =>
          simp only [callbacks, hd, List.forall_mem_map]
          cases u with
          | none =>
              simp only [MainMatches, hd, recvsOf]
              constructor
              · intro hall y hy front r rest hsplit hfront
                cases hy
                exact hall r (mem_doDispatch_iff.mpr ⟨front, rest, hsplit, hfront⟩)
              · intro hall r hr
                obtain ⟨front, rest, hsplit, hfront⟩ := mem_doDispatch_iff.mp hr
                exact hall x rfl front r rest hsplit hfront
          | some i =>
              refine iff_of_true ?_ trivial
              intro r hr
              exact recvsOf_isMatch hreg ((h i).delivering hd) (mem_of_mem_doDispatch hr)

theorem run_called {s t : Logged κ} {actions : List (Action ℕ)}
    (hr : (logged regexec receiveLog items reg).run s actions = some t) : s.called ⊆ t.called := by
  refine System.run_relation (S := logged regexec receiveLog items reg)
    (R := fun s t => s.called ⊆ t.called) (fun _ _ => id) (fun _ _ _ => List.Subset.trans) ?_ hr
  intro s a t ht
  simp only [logged, loggedStep] at ht
  split_ifs at ht
  obtain ⟨u, -, rfl⟩ := Option.map_eq_some_iff.mp ht
  exact List.subset_append_left _ _

theorem Filtered.run_match_iff [DecidableEq κ] (hreg : Receivers.Valid reg) {s t : Logged κ}
    {actions : List (Action ℕ)} (h : Filtered regexec items reg s.impl)
    (hold : ∀ p ∈ s.called, p.1.isMatch regexec p.2)
    (hr : (logged regexec receiveLog items reg).run s actions = some t) :
    (∀ p ∈ t.called, p.1.isMatch regexec p.2) ↔
      (logged regexec receiveLog items reg).Meets (MainMatches regexec receiveLog items reg) s
        actions := by
  induction actions generalizing s with
  | nil =>
      cases hr
      exact iff_of_true hold trivial
  | cons a rest ih =>
      obtain ⟨u, hu, hr⟩ := Option.bind_eq_some_iff.mp hr
      have hstep := hu
      simp only [logged, loggedStep] at hstep
      split_ifs at hstep with hans
      obtain ⟨impl, himpl, rfl⟩ := Option.map_eq_some_iff.mp hstep
      have hf : Filtered regexec items reg impl := h.step hans himpl
      have hcalls : (∀ p ∈ callbacks receiveLog items reg s.impl a, p.1.isMatch regexec p.2) ↔
          MainMatches regexec receiveLog items reg s a := callbacks_match_iff hreg h a
      simp only [System.Meets, hu]
      constructor
      · intro hall
        have hu' : ∀ p ∈ s.called ++ callbacks receiveLog items reg s.impl a,
            p.1.isMatch regexec p.2 := fun p hp => hall p (run_called hr hp)
        refine ⟨hcalls.mp fun p hp => hu' p (List.mem_append_right _ hp), ?_⟩
        exact (ih hf hu' hr).mp hall
      · intro hm
        refine (ih hf ?_ hr).mpr hm.2
        intro p hp
        rcases List.mem_append.mp hp with hp | hp
        · exact hold p hp
        · exact hcalls.mpr hm.1 p hp

-- Over any run, with any receivers that were registered: only matching receivers
-- are called exactly when those of the own list match what they are called with.
-- The dedicated threads never call one that does not.
theorem called_match_iff [DecidableEq κ] (hreg : (Receivers.system κ).Reachable reg)
    {s t : Logged κ} {actions : List (Action ℕ)}
    (hinit : (logged regexec receiveLog items reg).init s)
    (hr : (logged regexec receiveLog items reg).run s actions = some t) :
    (∀ p ∈ t.called, p.1.isMatch regexec p.2) ↔
      (logged regexec receiveLog items reg).Meets (MainMatches regexec receiveLog items reg) s
        actions := by
  obtain ⟨pThread, rfl⟩ := hinit
  exact (constructed_filtered _ pThread).run_match_iff (Receivers.reachable_valid hreg) nofun hr

end

-- An item with the title `talk`.
def talkItem : LogItem :=
  { eLevel := .INFO, strModule := "asr", strTitle := "talk", strLog := "", nThrdId := 1 }

-- Patterns without special characters are compared as they are.
def plainMatch (pattern title : String) : Bool := pattern = title

-- One `append_log` call, before any `start`: through the dedicated thread 0 and
-- then through the own list.
def throughBoth : List (Action ℕ) :=
  [.appendLog, .call 0 true, .call 0 true, .thread (some 0) (.append 0), .thread (some 0) (.append 0),
    .thread (some 0) (.append 0), .call 0 true, .call 0 true, .thread none (.append 0),
    .thread none (.append 0), .thread none (.append 0)]

-- The receiver 1 in a dedicated thread and the receiver 2 in the own list.
def bothKinds (title : String) : Registry ℕ :=
  { main := [newReceiver 2 (some title) false], thrds := [[newReceiver 1 (some title) true]] }

theorem bothKinds_reachable (title : String) :
    (Receivers.system ℕ).Reachable (bothKinds title) := by
  have hrun : (Receivers.system ℕ).run { main := [], thrds := [] }
      [.register 1 (some title) true, .register 2 (some title) false] = some (bothKinds title) := rfl
  exact System.Reachable.run (.init rfl) hrun

def beforeStart : Logged ℕ := { impl := constructed [0] fun _ => false, called := [] }

theorem called_match_both : ∃ t,
    (logged plainMatch (fun _ _ => 0) (fun _ => talkItem) (bothKinds "talk")).run beforeStart
      throughBoth = some t ∧
    t.called.map (·.1.recv) = [1, 2] ∧ ∀ p ∈ t.called, p.1.isMatch plainMatch p.2 := by
  obtain ⟨t, ht⟩ : ∃ t, (logged plainMatch (fun _ _ => 0) (fun _ => talkItem)
      (bothKinds "talk")).run beforeStart throughBoth = some t := ⟨_, rfl⟩
  refine ⟨t, ht, ?_, (called_match_iff (bothKinds_reachable "talk") ⟨_, rfl⟩ ht).mpr ?_⟩
  · cases ht
    rfl
  · refine ⟨trivial, trivial, trivial, trivial, trivial, trivial, trivial, trivial, nofun, nofun,
      ?_, trivial⟩
    intro x hx front r rest hsplit _
    cases hx
    have hmem : r ∈ (bothKinds "talk").main := by
      rw [hsplit]
      exact List.mem_append_right _ List.mem_cons_self
    rw [List.mem_singleton.mp hmem]
    decide

-- The own list is called although its title is another one.
theorem called_no_match : ¬∀ (κ : Type) (_ : DecidableEq κ) (regexec : String → String → Bool)
    (receiveLog : κ → LogItem → ℤ) (items : ℕ → LogItem) (reg : Registry κ) (s : Logged κ),
    (Receivers.system κ).Reachable reg → (logged regexec receiveLog items reg).Reachable s →
    ∀ p ∈ s.called, p.1.isMatch regexec p.2 := by
  intro h
  obtain ⟨s, hs⟩ : ∃ s, (logged plainMatch (fun _ _ => 0) (fun _ => talkItem)
      (bothKinds "asr")).run beforeStart
      [.appendLog, .call 0 true, .call 0 false, .call 0 true, .thread none (.append 0),
        .thread none (.append 0), .thread none (.append 0)] = some s := ⟨_, rfl⟩
  have hinit : (logged plainMatch (fun _ _ => 0) (fun _ => talkItem) (bothKinds "asr")).init
      beforeStart := ⟨_, rfl⟩
  have hmatch := h ℕ inferInstance plainMatch _ _ _ s (bothKinds_reachable "asr")
    (System.Reachable.run (.init hinit) hs)
  cases hs
  have hfalse := hmatch _ (List.mem_cons_self ..)
  revert hfalse
  decide

end LogImpl

end AsrServiceProxy.Log
