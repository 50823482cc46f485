import AsrServiceProxy.Config.Resolve.Merging
import AsrServiceProxy.Lib.Fuel
import Mathlib.Data.Finset.Card

-- What holds of the state of a resolution from one call to the next, and the rules
-- to derive that a part of it ends and keeps this.
namespace AsrServiceProxy.Config

open CMemory Simulation Fuel

-- What may stand in the table for a value: only references and merges are
-- replaced, and a replacement is lighter than what it replaces.
def Replaces (refs : List (Value ℕ)) (key : Value ℕ) : ResolveReplacer → Prop
  | .cycle => key.isSimpleObject = false
  | .delayedMerge stack skipping replacement =>
      key.isSimpleObject = false ∧ ForallAll (Allowed refs) stack ∧ weightAll stack < key.weight ∧
        0 < skipping ∧ ∀ v, replacement = some v → v.Forall (Allowed refs) ∧ v.weight < key.weight

-- What a value may be resolved to.
structure ResolvesTo (refs : List (Value ℕ)) (v : Value ℕ) (r : Option (Value ℕ)) : Prop where
  allowed : ∀ w, r = some w → w.Forall (Allowed refs)
  isObject : v.isSimpleObject → ∃ w, r = some w ∧ w.isObject

structure Sound (refs : List (Value ℕ)) (s : ResolveState) : Prop where
  memos : ∀ entry ∈ s.memos, ∀ w, entry.2 = some w → ResolvesTo refs entry.1.value (some w)
  replacements : ∀ entry ∈ s.replacements, Replaces refs entry.1 entry.2

def ResolveState.keys (s : ResolveState) : List (Value ℕ) := s.replacements.map Prod.fst

-- A call leaves the keys of the table and the trace as they were.
structure After (refs : List (Value ℕ)) (s s' : ResolveState) : Prop where
  sound : Sound refs s'
  keys : s'.keys = s.keys
  expressionTrace : s'.expressionTrace = s.expressionTrace

theorem Sound.after {refs : List (Value ℕ)} {s : ResolveState} (h : Sound refs s) :
    After refs s s where
  sound := h
  keys := rfl
  expressionTrace := rfl

theorem After.trans {refs : List (Value ℕ)} {s s' s'' : ResolveState} (h : After refs s s')
    (h' : After refs s' s'') : After refs s s'' where
  sound := h'.sound
  keys := h'.keys.trans h.keys
  expressionTrace := h'.expressionTrace.trans h.expressionTrace

-- A result with `post` or an exception of the library.
def Outcome {α : Type} (post : α → Prop) : Except ConfigException α → Prop
  | .ok a => post a
  | .error e => e.isDefined

theorem Outcome.imp {α : Type} {mid post : α → Prop} {r : Except ConfigException α}
    (h : Outcome mid r) (himp : ∀ a, mid a → post a) : Outcome post r := by
  cases r with
  | ok a => exact himp a h
  | error e => exact h

def Returns {α : Type} (refs : List (Value ℕ)) (m : ℕ → Resolve α) (s : ResolveState)
    (post : α → Prop) : Prop :=
  Ends m s fun r s' => After refs s s' ∧ Outcome post r

section

variable {α β : Type} {refs : List (Value ℕ)} {m m' : ℕ → Resolve α} {s : ResolveState}
  {mid post : α → Prop} {post' : β → Prop}

theorem Returns.pure (hs : Sound refs s) {a : α} (h : post a) :
    Returns refs (fun _ => pure a) s post := Ends.of_eq rfl ⟨hs.after, h⟩

theorem Returns.throw (hs : Sound refs s) {e : ConfigException} (h : e.isDefined) :
    Returns refs (fun _ => (throw e : Resolve α)) s post := Ends.of_eq rfl ⟨hs.after, h⟩

theorem Returns.imp (h : Returns refs m s mid) (himp : ∀ a, mid a → post a) :
    Returns refs m s post := by
  refine Ends.imp h ?_
  rintro r s' ⟨hafter, hr⟩
  exact ⟨hafter, hr.imp himp⟩

theorem Returns.bind {f : ℕ → α → Resolve β} (hm : Returns refs m s mid)
    (hf : ∀ a s', After refs s s' → mid a → Returns refs (fun n => f n a) s' post') :
    Returns refs (fun n => m n >>= f n) s post' := by
  refine Ends.bind hm ?_ ?_
  · rintro a s' ⟨hafter, ha⟩
    refine Ends.imp (hf a s' hafter ha) ?_
    rintro r s'' ⟨hafter', hr⟩
    exact ⟨hafter.trans hafter', hr⟩
  · rintro e s' ⟨hafter, he⟩
    exact ⟨hafter, he⟩

theorem Returns.tryCatch {handler : ConfigException → ℕ → Resolve α} (hm : Returns refs m s post)
    (hhandler : ∀ e s', After refs s s' → e.isDefined → Returns refs (handler e) s' post) :
    Returns refs (fun n => tryCatch (m n) fun e => handler e n) s post := by
  refine Ends.tryCatch hm ?_ ?_
  · rintro a s' ⟨hafter, ha⟩
    exact ⟨hafter, ha⟩
  · rintro e s' ⟨hafter, he⟩
    refine Ends.imp (hhandler e s' hafter he) ?_
    rintro r s'' ⟨hafter', hr⟩
    exact ⟨hafter.trans hafter', hr⟩

theorem Returns.ite {c : Prop} [Decidable c] (hm : c → Returns refs m s post)
    (hm' : ¬c → Returns refs m' s post) :
    Returns refs (fun n => if c then m n else m' n) s post := by
  by_cases h : c
  · simp only [if_pos h]
    exact hm h
  · simp only [if_neg h]
    exact hm' h

-- A step without recursion.
theorem Returns.of_eq {m : Resolve α} {r : Except ConfigException α} {s' : ResolveState}
    (h : m s = some (r, s')) (hafter : After refs s s') (hr : Outcome post r) :
    Returns refs (fun _ => m) s post := Ends.of_eq h ⟨hafter, hr⟩

theorem Returns.fromMake {m : Make ℕ α} (hs : Sound refs s)
    (h : Gives m post ConfigException.isDefined) :
    Returns refs (fun _ => Resolve.fromMake m) s post := by
  have hrun := h s.nextId
  cases hm : m s.nextId with
  | ok a n =>
      rw [hm] at hrun
      have heq : Resolve.fromMake m s = some (.ok a, { s with nextId := n }) := by
        simp [Resolve.fromMake, hm]
      exact Returns.of_eq heq ⟨⟨hs.memos, hs.replacements⟩, rfl, rfl⟩ hrun
  | error e n =>
      rw [hm] at hrun
      have heq : Resolve.fromMake m s = some (.error e, { s with nextId := n }) := by
        simp [Resolve.fromMake, hm]
      exact Returns.of_eq heq ⟨⟨hs.memos, hs.replacements⟩, rfl, rfl⟩ hrun

theorem Returns.fromExcept {e : Except ConfigException α} (hs : Sound refs s) (h : Outcome post e) :
    Returns refs (fun _ => Resolve.fromExcept e) s post := Returns.of_eq rfl hs.after h

theorem Returns.inNewContext (h : Returns refs m s post) :
    Returns refs (fun n => Resolve.inNewContext (m n)) s post := by
  obtain ⟨n, r, s', heq, hafter, hr⟩ := h
  refine ⟨n, r, { s' with expressionTrace := s.expressionTrace }, ?_, ⟨?_, hafter.keys, rfl⟩, hr⟩
  · intro k hk
    simp [Resolve.inNewContext, heq k hk]
  · exact ⟨hafter.sound.memos, hafter.sound.replacements⟩

theorem ends_finallyDo {mid post : Except ConfigException α → ResolveState → Prop}
    {after : Resolve Unit} (hm : Ends m s mid)
    (hafter : ∀ r s', mid r s' → ∃ s'', after s' = some (.ok (), s'') ∧ post r s'') :
    Ends (fun n => Resolve.finallyDo (m n) after) s post := by
  obtain ⟨n, r, s', heq, hmid⟩ := hm
  obtain ⟨s'', hs'', hpost⟩ := hafter r s' hmid
  exact ⟨n, r, s'', fun k hk => Resolve.finallyDo_run (heq k hk) hs'', hpost⟩

theorem lookup_isSome_iff (s : ResolveState) (v : Value ℕ) :
    (s.replacements.lookup v).isSome ↔ v ∈ s.keys :=
  Entries.isSome_lookup_iff

def ResolveState.withReplacement (s : ResolveState) (self : Value ℕ) (replacer : ResolveReplacer) :
    ResolveState := { s with replacements := (self, replacer) :: s.replacements }

theorem Sound.withReplacement (hs : Sound refs s) {self : Value ℕ} {replacer : ResolveReplacer}
    (h : Replaces refs self replacer) : Sound refs (s.withReplacement self replacer) where
  memos := hs.memos
  replacements := by
    intro entry hentry
    rcases List.mem_cons.mp hentry with rfl | hentry
    · exact h
    · exact hs.replacements entry hentry

-- The entry that was added is the one that is taken out again.
theorem unreplace_eq {self : Value ℕ} {replacer : ResolveReplacer} (hself : self ∉ s.keys)
    {s' : ResolveState} (h : After refs (s.withReplacement self replacer) s') :
    ∃ s'', Resolve.unreplace self s' = some (.ok (), s'') ∧ After refs s s'' := by
  have hkeys : s'.keys = self :: s.keys := h.keys
  have hfound : (s'.replacements.lookup self).isNone = false := by
    rw [Option.isNone_eq_false_iff, lookup_isSome_iff, hkeys]
    exact List.mem_cons_self
  refine ⟨{ s' with replacements := s'.replacements.filter fun r => r.1 ≠ self }, ?_, ?_, ?_, ?_⟩
  · simp [Resolve.unreplace, hfound]
  · refine ⟨h.sound.memos, ?_⟩
    intro entry hentry
    exact h.sound.replacements entry (List.mem_filter.mp hentry).1
  · have hfilter : (s'.replacements.filter fun r => r.1 ≠ self).map Prod.fst =
        s'.keys.filter (· ≠ self) := by
      rw [ResolveState.keys, List.filter_map]
      rfl
    rw [ResolveState.keys, hfilter, hkeys, List.filter_cons_of_neg (by simp), List.filter_eq_self]
    intro v hv
    have hne : v ≠ self := by
      rintro rfl
      exact hself hv
    simpa using hne
  · exact h.expressionTrace

-- A value that is already in the table is an error; else `m` runs with the entry.
theorem Returns.replaced (hs : Sound refs s) {self : Value ℕ} {replacer : ResolveReplacer}
    (h : self ∉ s.keys → Returns refs m (s.withReplacement self replacer) post) :
    Returns refs (fun n => do
      Resolve.replace self replacer
      Resolve.finallyDo (m n) (Resolve.unreplace self)) s post := by
  by_cases hself : self ∈ s.keys
  · have hfound := (lookup_isSome_iff s self).mpr hself
    refine ⟨0, .error (.bugOrBroken "should not have replaced the same value twice: "), s, ?_,
      hs.after, trivial⟩
    intro k _
    have hreplace : Resolve.replace self replacer s =
        some (.error (.bugOrBroken "should not have replaced the same value twice: "), s) := by
      simp [Resolve.replace, hfound]
    exact congrArg (fun x => x >>= _) hreplace
  · have hfound : (s.replacements.lookup self).isSome = false := by
      rw [← Bool.not_eq_true, lookup_isSome_iff]
      exact hself
    have hreplace : Resolve.replace self replacer s =
        some (.ok (), s.withReplacement self replacer) := by
      simp [Resolve.replace, hfound, ResolveState.withReplacement]
    refine Ends.bind_of_eq hreplace ?_
    refine ends_finallyDo (h hself) ?_
    rintro r s' ⟨hafter, hr⟩
    obtain ⟨s'', hs'', hafter'⟩ := unreplace_eq hself hafter
    exact ⟨s'', hs'', hafter', hr⟩

def ResolveState.withTrace (s : ResolveState) (expr : SubstitutionExpression) : ResolveState :=
  { s with expressionTrace := expr :: s.expressionTrace }

theorem Sound.withTrace (hs : Sound refs s) (expr : SubstitutionExpression) :
    Sound refs (s.withTrace expr) := ⟨hs.memos, hs.replacements⟩

-- The last expression of the trace may be another one when `m` is done.
theorem Returns.traced (expr : SubstitutionExpression)
    (h : Ends m (s.withTrace expr) fun r s' =>
      (∃ expr', After refs (s.withTrace expr') s') ∧ Outcome post r) :
    Returns refs (fun n => do
      Resolve.trace expr
      Resolve.finallyDo (m n) Resolve.untrace) s post := by
  have htrace : Resolve.trace expr s = some (.ok (), s.withTrace expr) := rfl
  refine Ends.bind_of_eq htrace ?_
  refine ends_finallyDo h ?_
  rintro r s' ⟨⟨expr', hafter⟩, hr⟩
  refine ⟨{ s' with expressionTrace := s.expressionTrace }, ?_, ⟨?_, hafter.keys, rfl⟩, hr⟩
  · simp [Resolve.untrace, hafter.expressionTrace, ResolveState.withTrace]
  · exact ⟨hafter.sound.memos, hafter.sound.replacements⟩

end

end AsrServiceProxy.Config
