import AsrServiceProxy.Log.Receivers
import Mathlib.Data.List.Nodup

namespace AsrServiceProxy.Log.Receivers

open Transition

variable {κ : Type*} [DecidableEq κ] {recv : κ} {recvs th : List (LogReceiver κ)}
  {reg : Registry κ}

theorem checkRecv_iff : checkRecv recvs recv = true ↔ recv ∈ recvs.map (·.recv) := by
  simp [checkRecv]

theorem checkRecv_eq_false : checkRecv recvs recv = false ↔ recv ∉ recvs.map (·.recv) := by
  rw [← checkRecv_iff, Bool.not_eq_true]

-- A list without duplicates loses exactly the receiver that is asked for.
theorem threadUnregister_eq (hnodup : (recvs.map (·.recv)).Nodup) :
    (threadUnregister recv recvs).2 = recvs.filter (·.recv ≠ recv) := by
  induction recvs with
  | nil => rfl
  | cons r rest ih =>
      rw [List.map_cons, List.nodup_cons] at hnodup
      rw [threadUnregister]
      split_ifs with hr
      · subst hr
        have hrest : ∀ q ∈ rest, q.recv ≠ r.recv := by
          intro q hq heq
          exact hnodup.1 (heq ▸ List.mem_map_of_mem hq)
        rw [List.filter_cons_of_neg (by simp), List.filter_eq_self.mpr (by simpa using hrest)]
      · rw [List.filter_cons_of_pos (by simpa using hr), ih hnodup.2]

theorem threadUnregister_fst :
    (threadUnregister recv recvs).1 = if checkRecv recvs recv then 1 else 0 := by
  induction recvs with
  | nil => rfl
  | cons r rest ih =>
      rw [threadUnregister]
      by_cases hr : r.recv = recv
      · simp [checkRecv, hr]
      · rw [if_neg hr, ih]
        simp [checkRecv, hr]

theorem threadUnregister_of_not_mem (h : checkRecv recvs recv = false) :
    (threadUnregister recv recvs).2 = recvs := by
  induction recvs with
  | nil => rfl
  | cons r rest ih =>
      simp only [checkRecv, List.any_cons, Bool.or_eq_false_iff, decide_eq_false_iff_not] at h
      rw [threadUnregister, if_neg h.1, ih h.2]

-- What registration keeps: a dedicated thread has one receiver, and neither list
-- has a receiver twice.
structure Valid (reg : Registry κ) : Prop where
  main : (reg.main.map (·.recv)).Nodup
  dedicated : (reg.thrds.flatten.map (·.recv)).Nodup
  single : ∀ th ∈ reg.thrds, ∃ lr, th = [lr] ∧ lr.bDedicatedThread = true

theorem mem_flatten_iff : recv ∈ reg.thrds.flatten.map (·.recv) ↔
    reg.thrds.any (checkRecv · recv) = true := by
  simp only [List.any_eq_true, checkRecv_iff, List.mem_map, List.mem_flatten]
  constructor
  · intro h
    obtain ⟨lr, ⟨th, hth, hlr⟩, heq⟩ := h
    exact ⟨th, hth, lr, hlr, heq⟩
  · intro h
    obtain ⟨th, hth, lr, hlr, heq⟩ := h
    exact ⟨lr, ⟨th, hth, hlr⟩, heq⟩

theorem threadRegister_nodup {lr : LogReceiver κ} (h : (recvs.map (·.recv)).Nodup) :
    ((threadRegister recvs lr).2.map (·.recv)).Nodup := by
  unfold threadRegister
  split_ifs with hc
  · exact h
  · rw [Bool.not_eq_true, checkRecv_eq_false] at hc
    rw [List.map_cons, List.nodup_cons]
    exact ⟨hc, h⟩

theorem Valid.register (h : Valid reg) (lr : LogReceiver κ) :
    Valid (registerReceiver reg lr).2 := by
  unfold registerReceiver
  split_ifs with hany hded
  · exact h
  · rw [Bool.not_eq_true, ← Bool.not_eq_true, ← mem_flatten_iff] at hany
    refine ⟨h.main, ?_, ?_⟩
    · have hflat : (reg.thrds ++ [[lr]]).flatten.map (·.recv) =
          reg.thrds.flatten.map (·.recv) ++ [lr.recv] := by simp
      have hone : (threadRegister [] lr).2 = [lr] := rfl
      simp only [hone, hflat]
      exact List.nodup_append'.mpr ⟨h.dedicated, List.nodup_singleton _, by simpa using hany⟩
    · intro th hth
      rcases List.mem_append.mp hth with hth | hth
      · exact h.single th hth
      · rw [List.mem_singleton] at hth
        exact ⟨lr, hth, hded⟩
  · exact ⟨threadRegister_nodup h.main, h.dedicated, h.single⟩

-- The threads in front of the iterator do not have the receiver, and at most one
-- behind it does. The element that is skipped after an `erase` then has it not.
theorem unregisterLoop_eq (front : List (List (LogReceiver κ)))
    {rest : List (List (LogReceiver κ))} {fuel : ℕ}
    (hfuel : rest.length < fuel)
    (honce : rest.Pairwise fun a b => checkRecv a recv → checkRecv b recv = false) :
    unregisterLoop recv fuel (front ++ rest) front.length =
      some (front ++ rest.filter (!checkRecv · recv)) := by
  induction fuel generalizing front rest with
  | zero => omega
  | succ fuel ih =>
      cases rest with
      | nil => simp [unregisterLoop]
      | cons th rest =>
          rw [List.pairwise_cons] at honce
          rw [List.length_cons] at hfuel
          have hne : front.length ≠ (front ++ th :: rest).length := by simp
          have hget : (front ++ th :: rest)[front.length]? = some th := by simp
          rw [unregisterLoop, if_neg hne, hget, Option.bind_some, threadUnregister_fst]
          cases hth : checkRecv th recv with
          | false =>
              have hset : (front ++ th :: rest).set front.length (threadUnregister recv th).2 =
                  front ++ th :: rest := by
                rw [threadUnregister_of_not_mem hth]
                simp
              have hstep := ih (front ++ [th]) (by omega) honce.2
              simp only [List.length_append, List.length_singleton, List.append_assoc,
                List.singleton_append] at hstep
              simp [hset, increment, hstep, hth]
          | true =>
              have herase : (front ++ th :: rest).eraseIdx front.length = front ++ rest := by
                simp [List.eraseIdx_append_of_length_le]
              have hfree : ∀ th' ∈ rest, checkRecv th' recv = false :=
                fun th' hmem => honce.1 th' hmem hth
              have hkeep : rest.filter (!checkRecv · recv) = rest := by
                rw [List.filter_eq_self]
                intro th' hmem
                rw [hfree th' hmem]
                rfl
              rw [List.filter_cons_of_neg (by simp [hth]), hkeep]
              simp only [if_true, herase]
              cases rest with
              | nil => simp
              | cons next rest =>
                  have hstep := ih (front ++ [next])
                    (by rw [List.length_cons] at hfuel; omega) (List.pairwise_cons.mp honce.2).2
                  have hkeep' : rest.filter (!checkRecv · recv) = rest := by
                    rw [List.filter_eq_self]
                    intro th' hmem
                    rw [hfree th' (List.mem_cons_of_mem _ hmem)]
                    rfl
                  simp only [List.length_append, List.length_singleton, List.append_assoc,
                    List.singleton_append, hkeep'] at hstep
                  simp [increment, hstep]

theorem Valid.pairwise (h : Valid reg) (recv : κ) :
    reg.thrds.Pairwise fun a b => checkRecv a recv → checkRecv b recv = false := by
  have hnodup := h.dedicated
  rw [List.map_flatten, List.nodup_flatten] at hnodup
  refine (List.pairwise_map.mp hnodup.2).imp ?_
  intro a b hdisj ha
  rw [checkRecv_iff] at ha
  rw [checkRecv_eq_false]
  exact hdisj ha

-- The registry after `unregister_receiver`.
theorem Valid.unregisterReceiver_eq (h : Valid reg) (recv : κ) :
    unregisterReceiver reg recv = some (if checkRecv reg.main recv then 1 else 0,
      { main := reg.main.filter (·.recv ≠ recv)
        thrds := reg.thrds.filter (!checkRecv · recv) }) := by
  have hloop := unregisterLoop_eq [] (Nat.lt_succ_self reg.thrds.length)
    (h.pairwise recv)
  simp only [List.nil_append, List.length_nil] at hloop
  rw [unregisterReceiver, hloop, Option.map_some, threadUnregister_eq h.main,
    threadUnregister_fst]

-- A dedicated thread has one receiver, so that a thread that loses it is dropped
-- whole and no other receiver with it.
theorem Valid.flatten_filter (h : Valid reg) (recv : κ) :
    (reg.thrds.filter (!checkRecv · recv)).flatten = reg.thrds.flatten.filter (·.recv ≠ recv) := by
  have hsingle := h.single
  generalize reg.thrds = thrds at hsingle
  induction thrds with
  | nil => rfl
  | cons th rest ih =>
      obtain ⟨lr, rfl, -⟩ := hsingle th List.mem_cons_self
      have hrest := ih fun th' hmem => hsingle th' (List.mem_cons_of_mem _ hmem)
      by_cases hlr : lr.recv = recv
      · simp [checkRecv, hlr] at hrest ⊢
        exact hrest
      · simp [checkRecv, hlr] at hrest ⊢
        exact hrest

theorem Valid.unregister (h : Valid reg) (recv : κ) :
    Valid { main := reg.main.filter (·.recv ≠ recv)
            thrds := reg.thrds.filter (!checkRecv · recv) } := by
  refine ⟨?_, ?_, ?_⟩
  · exact h.main.sublist (List.filter_sublist.map _)
  · simp only [h.flatten_filter recv]
    exact h.dedicated.sublist (List.filter_sublist.map _)
  · intro th hth
    exact h.single th (List.mem_of_mem_filter hth)

theorem Valid.step (h : Valid reg) {a : Action κ} {reg' : Registry κ}
    (ht : step reg a = some reg') : Valid reg' := by
  cases a with
  | register recv title bDedicatedThread =>
      cases ht
      exact h.register _
  | unregister recv =>
      simp only [Receivers.step, h.unregisterReceiver_eq recv, Option.map_some] at ht
      cases ht
      exact h.unregister recv

omit [DecidableEq κ] in
theorem empty_valid : Valid ({ main := [], thrds := [] } : Registry κ) :=
  ⟨List.nodup_nil, List.nodup_nil, nofun⟩

theorem reachable_valid (h : (system κ).Reachable reg) : Valid reg := by
  refine System.Reachable.invariant (S := system κ) (I := Valid) ?_ ?_ h
  · intro reg hinit
    cases hinit
    exact empty_valid
  · intro reg a reg' hv ht
    exact hv.step ht

-- The call always returns: the loop stays clear of the end of `_thrds`. The
-- receiver is gone from every list, and the others are where they were.
theorem unregister_complete (h : (system κ).Reachable reg) (recv : κ) :
    ∃ ret reg', unregisterReceiver reg recv = some (ret, reg') ∧ recv ∉ reg'.all ∧
      reg'.main = reg.main.filter (·.recv ≠ recv) ∧
      reg'.thrds = reg.thrds.filter (!checkRecv · recv) ∧
      reg'.thrds.flatten = reg.thrds.flatten.filter (·.recv ≠ recv) := by
  have hv := reachable_valid h
  refine ⟨_, _, hv.unregisterReceiver_eq recv, ?_, rfl, rfl, hv.flatten_filter recv⟩
  rw [Registry.all, hv.flatten_filter recv, ← List.filter_append]
  simp

-- A main receiver and two dedicated ones, of which the first is taken out.
theorem unregister_complete_dedicated :
    ∃ reg : Registry ℕ, (system ℕ).Reachable reg ∧ reg.all = [3, 1, 2] ∧
    ∃ ret reg', unregisterReceiver reg 1 = some (ret, reg') ∧ 1 ∉ reg'.all ∧
      reg'.main = reg.main.filter (·.recv ≠ 1) ∧
      reg'.thrds = reg.thrds.filter (!checkRecv · 1) ∧
      reg'.thrds.flatten = reg.thrds.flatten.filter (·.recv ≠ 1) := by
  obtain ⟨reg, hreg⟩ : ∃ reg, (system ℕ).run { main := [], thrds := [] }
      [.register 1 none true, .register 2 none true, .register 3 (some "asr") false] = some reg :=
    ⟨_, rfl⟩
  have hreach : (system ℕ).Reachable reg := System.Reachable.run (.init rfl) hreg
  refine ⟨reg, hreach, ?_, unregister_complete hreach 1⟩
  cases hreg
  rfl

-- The condition on one step: a receiver of the own list is not registered again
-- for a dedicated thread.
def Fresh (reg : Registry κ) : Action κ → Prop
  | .register recv _ true => recv ∉ reg.main.map (·.recv)
  | _ => True

instance (reg : Registry κ) (a : Action κ) : Decidable (Fresh reg a) :=
  match a with
  | .register _ _ true => inferInstanceAs (Decidable (_ ∉ _))
  | .register _ _ false | .unregister _ => isTrue trivial

-- No receiver is both in the own list and in a dedicated thread.
def Apart (reg : Registry κ) : Prop :=
  (reg.main.map (·.recv)).Disjoint (reg.thrds.flatten.map (·.recv))

theorem Apart.register (h : Apart reg) {title : Option String} {bDedicatedThread : Bool}
    (hfresh : Fresh reg (.register recv title bDedicatedThread)) :
    Apart (registerReceiver reg (newReceiver recv title bDedicatedThread)).2 := by
  unfold registerReceiver
  split_ifs with hany hded
  · exact h
  · cases bDedicatedThread with
    | false => cases hded
    | true =>
        have hone : (threadRegister [] (newReceiver recv title true)).2 =
          [newReceiver recv title true] := rfl
        simp only [Apart, hone, List.flatten_append, List.map_append, List.flatten_singleton,
          List.map_singleton]
        exact List.disjoint_append_right.mpr ⟨h, List.disjoint_singleton.mpr hfresh⟩
  · rw [← mem_flatten_iff] at hany
    simp only [Apart, threadRegister]
    split_ifs with hc
    · exact h
    · simp only [List.map_cons]
      exact List.disjoint_cons_left.mpr ⟨hany, h⟩

theorem Apart.step (hv : Valid reg) (h : Apart reg) {a : Action κ} (hfresh : Fresh reg a)
    {reg' : Registry κ} (ht : step reg a = some reg') : Apart reg' := by
  cases a with
  | register recv title bDedicatedThread =>
      cases ht
      exact h.register hfresh
  | unregister recv =>
      simp only [Receivers.step, hv.unregisterReceiver_eq recv, Option.map_some] at ht
      cases ht
      simp only [Apart, hv.flatten_filter recv]
      exact List.disjoint_of_subset_left (List.map_subset _ (List.filter_subset_self _))
        (List.disjoint_of_subset_right (List.map_subset _ (List.filter_subset_self _)) h)

-- As long as no receiver of the own list is registered again for a dedicated
-- thread, each receiver is registered at most once.
theorem all_nodup (h : (system κ).ReachableWhen Fresh reg) : reg.all.Nodup := by
  have hinv : Valid reg ∧ Apart reg := by
    refine System.ReachableWhen.invariant (S := system κ) (I := fun reg => Valid reg ∧ Apart reg)
      ?_ ?_ h
    · intro reg hinit
      cases hinit
      exact ⟨empty_valid, List.disjoint_nil_left _⟩
    · intro reg a reg' hi hfresh ht
      exact ⟨hi.1.step ht, hi.2.step hi.1 hfresh ht⟩
  obtain ⟨hv, hapart⟩ := hinv
  rw [Registry.all, List.map_append]
  exact List.nodup_append'.mpr ⟨hv.main, hv.dedicated, hapart⟩

-- One receiver of each kind.
theorem all_nodup_both_kinds : ∃ reg : Registry ℕ, (system ℕ).ReachableWhen Fresh reg ∧
    reg.all = [2, 1] ∧ reg.all.Nodup := by
  obtain ⟨reg, hreg⟩ : ∃ reg, (system ℕ).runWhen Fresh { main := [], thrds := [] }
      [.register 1 none true, .register 2 none false, .register 1 none false] = some reg :=
    ⟨_, rfl⟩
  have hreach : (system ℕ).ReachableWhen Fresh reg :=
    System.ReachableWhen.runWhen (.init rfl) hreg
  refine ⟨reg, hreach, ?_, all_nodup hreach⟩
  cases hreg
  rfl

-- The dedicated registration looks only at the dedicated threads.
theorem all_duplicate : ¬∀ (κ : Type) (_ : DecidableEq κ) (reg : Registry κ),
    (system κ).Reachable reg → reg.all.Nodup := by
  intro h
  obtain ⟨reg, hreg⟩ : ∃ reg, (system ℕ).run { main := [], thrds := [] }
      [.register 1 none false, .register 1 none true] = some reg := ⟨_, rfl⟩
  have hnodup := h ℕ inferInstance reg (System.Reachable.run (.init rfl) hreg)
  cases hreg
  revert hnodup
  decide

end AsrServiceProxy.Log.Receivers
