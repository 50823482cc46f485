import AsrServiceProxy.Config.Resolve.Invariant

-- Resolution ends. A call is made with fewer references left that are not being
-- resolved yet, or with as many and a lighter value.
namespace AsrServiceProxy.Config

open CMemory Simulation Fuel

theorem improveNotResolved_isDefined {e : ConfigException} (h : e.isDefined) :
    (improveNotResolved e).isDefined := by
  cases e <;> exact h

-- Keys are looked up in objects only, and what is found was in the object.
mutual

theorem attemptPeek_outcome {p : Value ℕ → Prop} (key : Bytes) :
    ∀ v : Value ℕ, v.isObject → v.Forall p →
      Outcome (fun r => ∀ w, r = some w → w.Forall p) (attemptPeekWithPartialResolve key v)
  | .simpleConfigObject _ value _, _, hv => by
      intro w hw
      exact (forallFields_iff value).mp hv.2 _ (Entries.mem_of_lookup hw)
  | .configDelayedMergeObject _ stack, _, hv => peekLayers_outcome key stack hv.2
  | .configNull _, h, _ => by cases h
  | .configBoolean _ _, h, _ => by cases h
  | .configInt _ _ _, h, _ => by cases h
  | .configInt64 _ _ _, h, _ => by cases h
  | .configDouble _ _, h, _ => by cases h
  | .configString _ _, h, _ => by cases h
  | .simpleConfigList _ _, h, _ => by cases h
  | .configReference _ _ _, h, _ => by cases h
  | .configConcatenation _ _, h, _ => by cases h
  | .configDelayedMerge _ _, h, _ => by cases h

theorem peekLayers_outcome {p : Value ℕ → Prop} (key : Bytes) :
    ∀ stack : List (Value ℕ), ForallAll p stack →
      Outcome (fun r => ∀ w, r = some w → w.Forall p) (peekLayers key stack)
  | [], _ => trivial
  | layer :: rest, hstack => by
      have hrest := peekLayers_outcome key rest hstack.2
      unfold peekLayers
      by_cases hobject : layer.isObject
      · have hlayer := attemptPeek_outcome key layer hobject hstack.1
        rw [if_pos hobject]
        cases hpeek : attemptPeekWithPartialResolve key layer with
        | error e =>
            rw [hpeek] at hlayer
            exact hlayer
        | ok r =>
            rw [hpeek] at hlayer
            cases r with
            | none =>
                by_cases hunmergeable : layer.isUnmergeable
                · simp only [bind, Except.bind, hunmergeable, ite_true]
                  trivial
                · simp only [bind, Except.bind, hunmergeable, Bool.false_eq_true, ite_false]
                  exact hrest
            | some v =>
                by_cases hignores : v.ignoresFallbacks
                · simp only [bind, Except.bind, hignores, ite_true]
                  exact hlayer
                · simp only [bind, Except.bind, hignores, Bool.false_eq_true, ite_false]
                  exact hrest
      · rw [if_neg hobject]
        split_ifs
        · trivial
        · intro w hw
          cases hw
        · trivial
        · split
          · intro w hw
            cases hw
          · trivial

end

theorem peekPath_outcome {p : Value ℕ → Prop} (path : Path) (v : Value ℕ) (hobject : v.isObject)
    (hv : v.Forall p) : Outcome (fun r => ∀ w, r = some w → w.Forall p) (peekPath v path) := by
  induction path generalizing v with
  | newKey first =>
      have hpeek := attemptPeek_outcome first v hobject hv
      rw [peekPath]
      cases h : attemptPeekWithPartialResolve first v with
      | error e =>
          rw [h] at hpeek
          exact improveNotResolved_isDefined hpeek
      | ok r =>
          rw [h] at hpeek
          exact hpeek
  | cons first next ih =>
      have hpeek := attemptPeek_outcome first v hobject hv
      rw [peekPath]
      cases h : attemptPeekWithPartialResolve first v with
      | error e =>
          rw [h] at hpeek
          exact improveNotResolved_isDefined hpeek
      | ok r =>
          rw [h] at hpeek
          cases r with
          | none => nofun
          | some w =>
              by_cases hw : w.isObject
              · have hnext := ih w hw (hpeek w rfl)
                simp only [hw, ite_true]
                cases h' : peekPath w next with
                | error e =>
                    rw [h'] at hnext
                    exact improveNotResolved_isDefined hnext
                | ok r =>
                    rw [h'] at hnext
                    exact hnext
              · simp only [hw, Bool.false_eq_true, ite_false]
                nofun

-- The references that are not being resolved.
def remaining (refs : List (Value ℕ)) (keys : List (Value ℕ)) : ℕ :=
  (refs.toFinset \ keys.toFinset).card

theorem remaining_cons_le (refs keys : List (Value ℕ)) (v : Value ℕ) :
    remaining refs (v :: keys) ≤ remaining refs keys := by
  rw [remaining, List.toFinset_cons, Finset.sdiff_insert]
  exact Finset.card_erase_le

theorem remaining_cons_lt {refs keys : List (Value ℕ)} {v : Value ℕ} (hv : v ∈ refs)
    (hnew : v ∉ keys) : remaining refs (v :: keys) < remaining refs keys := by
  rw [remaining, List.toFinset_cons, Finset.sdiff_insert]
  apply Finset.card_erase_lt_of_mem
  simp [hv, hnew]

-- A state in which at most `l` references are left.
structure Ready (refs : List (Value ℕ)) (l : ℕ) (s : ResolveState) : Prop where
  sound : Sound refs s
  remaining_le : remaining refs s.keys ≤ l

theorem Ready.after {refs : List (Value ℕ)} {l : ℕ} {s s' : ResolveState} (hs : Ready refs l s)
    (h : After refs s s') : Ready refs l s' := ⟨h.sound, h.keys ▸ hs.remaining_le⟩

theorem Ready.withTrace {refs : List (Value ℕ)} {l : ℕ} {s : ResolveState} (hs : Ready refs l s)
    (expr : SubstitutionExpression) : Ready refs l (s.withTrace expr) :=
  ⟨hs.sound.withTrace expr, hs.remaining_le⟩

-- A merge that has begun with an object stays one.
theorem gives_mergeResolved {refs : List (Value ℕ)} {merged resolved : Option (Value ℕ)}
    (hmerged : ∀ u, merged = some u → u.Forall (Allowed refs))
    (hresolved : ∀ u, resolved = some u → u.Forall (Allowed refs)) :
    Gives (mergeResolved merged resolved)
      (fun r => (∀ u, r = some u → u.Forall (Allowed refs)) ∧
        (∀ u, merged = some u → u.isObject → ∃ u', r = some u' ∧ u'.isObject) ∧
        (merged = none → r = resolved)) ConfigException.isDefined := by
  cases resolved with
  | none =>
      refine Gives.pure ⟨hmerged, ?_, id⟩
      intro u hu hobject
      exact ⟨u, hu, hobject⟩
  | some v =>
      cases merged with
      | none => exact Gives.pure ⟨hresolved, nofun, fun _ => rfl⟩
      | some m =>
          refine Gives.bind (gives_withFallback .numbered (hmerged m rfl) (hresolved v rfl)) ?_
          intro c hc
          refine Gives.pure ⟨?_, ?_, nofun⟩
          · rintro u ⟨⟩
            exact hc.allowed
          · rintro u ⟨⟩ hobject
            exact ⟨c, rfl, hc.isObject hobject⟩

-- The calls that are made with at most `l` references left and a value of at most
-- the weight `w` end.
def Resolves (call : ℕ → Option Path → Value ℕ → Resolve (Option (Value ℕ)))
    (refs : List (Value ℕ)) (l w : ℕ) : Prop :=
  ∀ context v s, Ready refs l s → v.Forall (Allowed refs) → v.weight ≤ w →
    Returns refs (fun n => call n context v) s (ResolvesTo refs v)

section

variable {call : ℕ → Option Path → Value ℕ → Resolve (Option (Value ℕ))}
  {refs : List (Value ℕ)} {l w : ℕ} {s : ResolveState} (h : Resolves call refs l w)
  (hs : Ready refs l s) (context : Option Path)

include h hs

theorem returns_restrictAndResolve (restrictTo : Option Path) {v : Value ℕ}
    (hv : v.Forall (Allowed refs)) (hw : v.weight ≤ w) :
    Returns refs (fun n => restrictAndResolve (call n) context restrictTo v) s
      (ResolvesTo refs v) := by
  refine Returns.ite (fun _ => ?_) fun _ => ?_
  · exact h context v s hs hv hw
  · exact (h restrictTo v s hs hv hw).inNewContext

theorem returns_modifyChild (key : Bytes) {v : Value ℕ} (hv : v.Forall (Allowed refs))
    (hw : v.weight ≤ w) :
    Returns refs (fun n => modifyChild (call n) context key v) s
      (fun r => ∀ u, r = some u → u.Forall (Allowed refs)) := by
  have hself : ∀ u, some v = some u → u.Forall (Allowed refs) := by
    rintro u ⟨⟩
    exact hv
  cases context with
  | none => exact (h none v s hs hv hw).imp fun r hr => hr.allowed
  | some path =>
      refine Returns.ite (fun _ => ?_) fun _ => Returns.pure hs.sound hself
      cases path.remainder with
      | none => exact Returns.pure hs.sound hself
      | some remainder =>
          exact (returns_restrictAndResolve h hs _ (some remainder) hv hw).imp fun r hr => hr.allowed

omit hs in
theorem returns_modifyFields {fields : List (Bytes × Value ℕ)} {s : ResolveState}
    (hs : Ready refs l s) (hfields : ForallFields (Allowed refs) fields)
    (hw : weightFields fields ≤ w) :
    Returns refs (fun n => modifyFields (call n) context fields) s
      (fun r => ForallFields (Allowed refs) r.1 ∧
        (r.1.map Prod.fst).Sublist (fields.map Prod.fst)) := by
  induction fields generalizing s with
  | nil => exact Returns.pure hs.sound ⟨trivial, List.Sublist.slnil⟩
  | cons field rest ih =>
      obtain ⟨key, v⟩ := field
      rw [weightFields] at hw
      refine Returns.bind (returns_modifyChild h hs context key hfields.1 (by omega)) ?_
      intro modified s' hafter hmodified
      refine Returns.bind (ih (hs.after hafter) hfields.2 (by omega)) ?_
      rintro ⟨fields', changed⟩ s'' hafter' ⟨hfields', hkeys⟩
      refine Returns.pure hafter'.sound ?_
      cases modified with
      | none => exact ⟨hfields', hkeys.cons key⟩
      | some u => exact ⟨⟨hmodified u rfl, hfields'⟩, hkeys.cons_cons key⟩

theorem returns_resolveObject {id : ℕ} {value : Fields ℕ} {ignores : Bool}
    (hv : (Value.simpleConfigObject id value ignores).Forall (Allowed refs))
    (hw : weightFields value ≤ w) :
    Returns refs (fun n => resolveObject (call n) context (.simpleConfigObject id value ignores)
      value ignores) s (ResolvesTo refs (.simpleConfigObject id value ignores)) := by
  have hself : ResolvesTo refs (.simpleConfigObject id value ignores)
      (some (.simpleConfigObject id value ignores)) := by
    refine ⟨?_, fun _ => ⟨_, rfl, rfl⟩⟩
    rintro u ⟨⟩
    exact hv
  refine Returns.ite (fun _ => Returns.pure hs.sound hself) fun _ => ?_
  refine Returns.bind (returns_modifyFields h context hs hv.2 hw) ?_
  rintro ⟨fields, changed⟩ s' hafter ⟨hfields, hkeys⟩
  refine Returns.ite (fun _ => ?_) fun _ => Returns.pure hafter.sound hself
  refine Returns.bind (Returns.fromMake hafter.sound
    (gives_makeObject .numbered hfields (hkeys.nodup hv.1.1) _ ignores)) ?_
  rintro u s'' hafter' ⟨hu, hsimple, _⟩
  refine Returns.pure hafter'.sound ⟨?_, fun _ => ⟨u, rfl, ?_⟩⟩
  · rintro u' ⟨⟩
    exact hu
  · cases u with
    | simpleConfigObject => rfl
    | _ => cases hsimple

omit hs in
theorem returns_modifyElements {elements : List (Value ℕ)} {s : ResolveState}
    (hs : Ready refs l s) (helements : ForallAll (Allowed refs) elements)
    (hw : weightAll elements ≤ w) :
    Returns refs (fun n => modifyElements (call n) elements) s
      (fun r => ForallAll (Allowed refs) r.1) := by
  induction elements generalizing s with
  | nil => exact Returns.pure hs.sound trivial
  | cons v rest ih =>
      rw [weightAll] at hw
      refine Returns.bind (h none v s hs helements.1 (by omega)) ?_
      intro modified s' hafter hmodified
      refine Returns.bind (ih (hs.after hafter) helements.2 (by omega)) ?_
      rintro ⟨elements', changed⟩ s'' hafter' helements'
      refine Returns.pure hafter'.sound ?_
      cases modified with
      | none => exact helements'
      | some u => exact ⟨hmodified.allowed u rfl, helements'⟩

theorem returns_resolveList {id : ℕ} {value : List (Value ℕ)}
    (hv : (Value.simpleConfigList id value).Forall (Allowed refs)) (hw : weightAll value ≤ w) :
    Returns refs (fun n => resolveList (call n) context (.simpleConfigList id value) value) s
      (ResolvesTo refs (.simpleConfigList id value)) := by
  have hself : ResolvesTo refs (.simpleConfigList id value)
      (some (.simpleConfigList id value)) := by
    refine ⟨?_, nofun⟩
    rintro u ⟨⟩
    exact hv
  refine Returns.ite (fun _ => Returns.pure hs.sound hself) fun _ => ?_
  refine Returns.ite (fun _ => Returns.pure hs.sound hself) fun _ => ?_
  refine Returns.bind (returns_modifyElements h hs hv.2 hw) ?_
  rintro ⟨elements, changed⟩ s' hafter helements
  refine Returns.ite (fun _ => ?_) fun _ => Returns.pure hafter.sound hself
  refine Returns.bind (Returns.fromMake hafter.sound (gives_makeList .numbered helements true)) ?_
  intro u s'' hafter' hu
  refine Returns.pure hafter'.sound ⟨?_, nofun⟩
  rintro u' ⟨⟩
  exact hu

omit hs in
theorem returns_resolvePieces {pieces : List (Value ℕ)} {s : ResolveState} (hs : Ready refs l s)
    (hpieces : ForallAll (Allowed refs) pieces) (hw : weightAll pieces ≤ w) :
    Returns refs (fun n => resolvePieces (call n) context pieces) s
      (fun r => ForallAll (Allowed refs) r) := by
  induction pieces generalizing s with
  | nil => exact Returns.pure hs.sound trivial
  | cons p rest ih =>
      rw [weightAll] at hw
      refine Returns.bind (returns_restrictAndResolve h hs context none hpieces.1 (by omega)) ?_
      intro r s' hafter hr
      refine Returns.bind (ih (hs.after hafter) hpieces.2 (by omega)) ?_
      intro resolved s'' hafter' hresolved
      refine Returns.pure hafter'.sound ?_
      cases r with
      | none => exact hresolved
      | some u => exact ⟨hr.allowed u rfl, hresolved⟩

theorem returns_resolveConcatenation {pieces : List (Value ℕ)}
    (hpieces : ForallAll (Allowed refs) pieces) (hw : weightAll pieces ≤ w) :
    Returns refs (fun n => resolveConcatenation (call n) context pieces) s
      (fun r => ∀ u, r = some u → u.Forall (Allowed refs)) := by
  refine Returns.bind (returns_resolvePieces h context hs hpieces hw) ?_
  intro resolved s' hafter hresolved
  refine Returns.bind (Returns.fromMake hafter.sound (gives_consolidate .numbered hresolved)) ?_
  intro joined s'' hafter' hjoined
  rcases joined with _ | ⟨v, _ | ⟨v', rest⟩⟩
  · exact Returns.throw hafter'.sound trivial
  · refine Returns.pure hafter'.sound ?_
    rintro u ⟨⟩
    exact hjoined.1
  · exact Returns.throw hafter'.sound trivial

-- The layers of the merge `self` are lighter than it and are no merges themselves.
theorem returns_resolveLayer {self : Value ℕ} {stack : List (Value ℕ)}
    (hsimple : self.isSimpleObject = false) (hstack : ForallAll (Allowed refs) stack)
    (hlighter : weightAll stack < self.weight) (count : ℕ) {v : Value ℕ}
    (hv : v.Forall (Allowed refs)) (hw : v.weight ≤ w) :
    Returns refs (fun n => resolveLayer (call n) context self stack count v) s
      (ResolvesTo refs v) := by
  refine Returns.ite (fun _ => Returns.throw hs.sound trivial) fun _ => ?_
  refine Returns.ite (fun _ => ?_) fun _ => h context v s hs hv hw
  refine Returns.replaced hs.sound fun _ => ?_
  have hreplaces : Replaces refs self (.delayedMerge stack (count + 1) none) :=
    ⟨hsimple, hstack, hlighter, Nat.succ_pos count, nofun⟩
  refine h context v _ ⟨hs.sound.withReplacement hreplaces, ?_⟩ hv hw
  exact (remaining_cons_le refs s.keys self).trans hs.remaining_le

omit hs in
theorem returns_resolveStackLoop {self : Value ℕ} {stack : List (Value ℕ)}
    (hsimple : self.isSimpleObject = false) (hstack : ForallAll (Allowed refs) stack)
    (hlighter : weightAll stack < self.weight) {layers : List (Value ℕ)}
    (hlayers : ForallAll (Allowed refs) layers) (hw : weightAll layers ≤ w) (count : ℕ)
    {merged : Option (Value ℕ)} (hmerged : ∀ u, merged = some u → u.Forall (Allowed refs))
    {s : ResolveState} (hs : Ready refs l s) :
    Returns refs (fun n => resolveStackLoop (call n) context self stack layers count merged) s
      (fun r => (∀ u, r = some u → u.Forall (Allowed refs)) ∧
        ((∃ u, merged = some u ∧ u.isObject) ∨
          (merged = none ∧ layers.head?.any Value.isSimpleObject) →
          ∃ u, r = some u ∧ u.isObject)) := by
  induction layers generalizing count merged s with
  | nil =>
      refine Returns.pure hs.sound ⟨hmerged, ?_⟩
      rintro (hobject | ⟨_, hnone⟩)
      · exact hobject
      · cases hnone
  | cons v rest ih =>
      rw [weightAll] at hw
      refine Returns.bind (returns_resolveLayer h hs context hsimple hstack hlighter count hlayers.1
        (by omega)) ?_
      intro resolved s' hafter hresolved
      refine Returns.bind (Returns.fromMake hafter.sound
        (gives_mergeResolved hmerged hresolved.allowed)) ?_
      rintro merged' s'' hafter' ⟨hallowed, hkeeps, hfirst⟩
      refine (ih hlayers.2 (by omega) (count + 1) hallowed
        ((hs.after hafter).after hafter')).imp ?_
      rintro r ⟨hr, hobject⟩
      refine ⟨hr, ?_⟩
      rintro (⟨u, hu, huobject⟩ | ⟨hnone, hv⟩)
      · exact hobject (Or.inl (hkeeps u hu huobject))
      · refine hobject (Or.inl ?_)
        rw [hfirst hnone]
        exact hresolved.isObject hv

theorem returns_resolveStack {self : Value ℕ} {stack : List (Value ℕ)}
    (hsimple : self.isSimpleObject = false) (hstack : ForallAll (Allowed refs) stack)
    (hlighter : weightAll stack < self.weight) (hw : weightAll stack ≤ w) :
    Returns refs (fun n => resolveStack (call n) context self stack) s
      (fun r => (∀ u, r = some u → u.Forall (Allowed refs)) ∧
        (stack.head?.any Value.isSimpleObject → ∃ u, r = some u ∧ u.isObject)) := by
  have hnone : ∀ u, none = some u → Value.Forall (Allowed refs) u := by
    intro u hu
    cases hu
  refine (returns_resolveStackLoop h context hsimple hstack hlighter hstack hw 0 hnone hs).imp ?_
  rintro r ⟨hr, hobject⟩
  exact ⟨hr, fun hfirst => hobject (Or.inr ⟨rfl, hfirst⟩)⟩

end

-- The first layer of a delayed merge object is an object with fields.
theorem Value.Checked.head {id : ℕ} {stack : List (Value ℕ)}
    (h : (Value.configDelayedMergeObject id stack).Checked) :
    stack.head?.any Value.isSimpleObject := by
  obtain ⟨hhead, hnested⟩ := h
  cases stack with
  | nil => cases hhead
  | cons first rest =>
      rw [List.any_cons, Bool.or_eq_false_iff] at hnested
      cases first with
      | simpleConfigObject => rfl
      | configDelayedMergeObject => cases hnested.1
      | _ => cases hhead

theorem Path.subPath_isSome {path : Path} {n : ℕ} (h : n < path.length) :
    ∃ rest, path.subPath n = some rest := by
  induction n generalizing path with
  | zero => exact ⟨path, by rw [Path.subPath]⟩
  | succ n ih =>
      cases path with
      | newKey first => simp [Path.length, Path.keys] at h
      | cons first remainder =>
          rw [Path.length, Path.keys, List.length_cons] at h
          exact ih (Nat.lt_of_succ_lt_succ h)

theorem gives_envStrings (refs : List (Value ℕ)) (environment : List (Bytes × Bytes)) :
    Gives (envStrings environment) (fun fields => ForallFields (Allowed refs) fields ∧
      fields.map Prod.fst = environment.map Prod.fst) ConfigException.isDefined := by
  induction environment with
  | nil => exact Gives.pure ⟨trivial, rfl⟩
  | cons entry rest ih =>
      rw [envStrings, List.mapM_cons]
      have hentry : Gives (do return (entry.1, .configString (← Objects.numbered.new) entry.2))
          (fun field : Bytes × Value ℕ => field.1 = entry.1 ∧ field.2.Forall (Allowed refs))
          ConfigException.isDefined := by
        refine Gives.bind (gives_new .numbered fun _ => trivial) ?_
        intro id _
        exact Gives.pure ⟨rfl, trivial, nofun⟩
      refine Gives.bind hentry ?_
      rintro ⟨key, v⟩ ⟨rfl, hv⟩
      refine Gives.bind ih ?_
      rintro fields ⟨hfields, hkeys⟩
      refine Gives.pure ⟨⟨hv, hfields⟩, ?_⟩
      rw [List.map_cons, List.map_cons, hkeys]

theorem gives_environment (refs : List (Value ℕ)) {environment : List (Bytes × Bytes)}
    (henv : (environment.map Prod.fst).Nodup) :
    Gives (envVariablesAsConfigObject environment)
      (fun v => v.Forall (Allowed refs) ∧ v.isSimpleObject) ConfigException.isDefined := by
  refine Gives.bind (gives_envStrings refs environment) ?_
  rintro fields ⟨hfields, hkeys⟩
  refine (gives_makeObject .numbered hfields (hkeys ▸ henv) true false).imp ?_
  rintro v ⟨hv, hsimple, _⟩
  exact ⟨hv, hsimple⟩

section

variable {environment : List (Bytes × Bytes)} (options : ConfigResolveOptions) {root : Value ℕ}
  {call : ℕ → Option Path → Value ℕ → Resolve (Option (Value ℕ))} {refs : List (Value ℕ)} {l : ℕ}
  (h : ∀ w, Resolves call refs l w) (henv : (environment.map Prod.fst).Nodup)
  (hroot : root.Forall (Allowed refs)) (hsimple : root.isSimpleObject) (context : Option Path)

-- The look-ups for a reference, which may go through the whole of the root again.
include h in
theorem returns_findInObject {s : ResolveState} (hs : Ready refs l s) {obj : Value ℕ}
    (hobj : obj.Forall (Allowed refs)) (hsimple : obj.isSimpleObject) (path : Path) :
    Returns refs (fun n => findInObject (call n) context obj path) s
      (fun r => ∀ u, r = some u → u.Forall (Allowed refs)) := by
  refine Returns.tryCatch ?_ ?_
  · refine Returns.bind (returns_restrictAndResolve (h obj.weight) hs context (some path) hobj
      le_rfl) ?_
    intro r s' hafter hr
    obtain ⟨u, rfl, hu⟩ := hr.isObject hsimple
    simp only [hu, ite_true]
    exact Returns.fromExcept hafter.sound (peekPath_outcome path u hu (hr.allowed u rfl))
  · intro e s' hafter he
    exact Returns.throw hafter.sound (improveNotResolved_isDefined he)

include h henv hroot hsimple in
theorem ends_lookupUnprefixed {s s' : ResolveState} (hs : Ready refs l s)
    {subst subst' : SubstitutionExpression} (hafter : After refs (s.withTrace subst') s')
    {prefixLength : ℕ} (hlength : prefixLength < subst.path.length) :
    Ends (fun n => lookupUnprefixed environment options root (call n) context subst prefixLength) s'
      fun r s'' => (∃ expr, After refs (s.withTrace expr) s'') ∧
        Outcome (fun r => ∀ u, r = some u → u.Forall (Allowed refs)) r := by
  obtain ⟨path, hpath⟩ := Path.subPath_isSome hlength
  simp only [lookupUnprefixed, hpath]
  -- the expression that is traced is replaced by the one without the prefix
  generalize hexpr : { subst with path := path } = expr
  have huntrace : Resolve.untrace s' =
      some (.ok (), { s' with expressionTrace := s.expressionTrace }) := by
    simp [Resolve.untrace, hafter.expressionTrace, ResolveState.withTrace]
  refine Ends.bind_of_eq huntrace (Ends.bind_of_eq rfl ?_)
  generalize ht : ({ s' with expressionTrace := expr :: s.expressionTrace } : ResolveState) = t
  have htafter : After refs (s.withTrace expr) t := by
    rw [← ht]
    exact ⟨⟨hafter.sound.memos, hafter.sound.replacements⟩, hafter.keys, rfl⟩
  have htready : Ready refs l t := (hs.withTrace expr).after htafter
  have hfind : Returns refs (fun n => if 0 < prefixLength
      then findInObject (call n) context root path else pure none) t
      (fun r => ∀ u, r = some u → u.Forall (Allowed refs)) := by
    refine Returns.ite (fun _ => ?_) fun _ => ?_
    · exact returns_findInObject h context htready hroot hsimple path
    · exact Returns.pure htready.sound (fun u hu => by cases hu)
  refine Ends.imp (Returns.bind hfind ?_) fun r s'' hr => ⟨⟨expr, htafter.trans hr.1⟩, hr.2⟩
  intro r s'' hafter' hr
  cases r with
  | some v => exact Returns.pure hafter'.sound hr
  | none =>
      refine Returns.ite (fun _ => ?_) fun _ => Returns.pure hafter'.sound hr
      refine Returns.bind (Returns.fromMake hafter'.sound (gives_environment refs henv)) ?_
      rintro env s₃ hafter'' ⟨henvironment, henvsimple⟩
      exact returns_findInObject h context ((htready.after hafter').after hafter'') henvironment
        henvsimple path

include h henv hroot hsimple in
theorem returns_lookupSubst {s : ResolveState} (hs : Ready refs l s)
    {subst : SubstitutionExpression} {prefixLength : ℕ}
    (hlength : prefixLength < subst.path.length) :
    Returns refs (fun n => lookupSubst environment options root (call n) context subst
      prefixLength) s (fun r => ∀ u, r = some u → u.Forall (Allowed refs)) := by
  refine Returns.traced subst ?_
  -- what was found is resolved in its turn
  have hresult : ∀ expr s' (v : Value ℕ), After refs (s.withTrace expr) s' →
      v.Forall (Allowed refs) →
      Ends (fun n => call n context v) s' fun r s'' =>
        (∃ expr', After refs (s.withTrace expr') s'') ∧
          Outcome (fun r => ∀ u, r = some u → u.Forall (Allowed refs)) r := by
    intro expr s' v hafter hallowed
    have hready : Ready refs l s' := (hs.withTrace expr).after hafter
    refine Ends.imp (h v.weight context v s' hready hallowed le_rfl) ?_
    rintro r s'' ⟨hafter', hr⟩
    exact ⟨⟨expr, hafter.trans hafter'⟩, hr.imp fun a ha => ha.allowed⟩
  refine Ends.bind (returns_findInObject h context (hs.withTrace subst) hroot hsimple
    subst.path) ?_ ?_
  · rintro r s' ⟨hafter, hr⟩
    cases r with
    | some v => exact Ends.bind_of_eq rfl (hresult subst s' v hafter (hr v rfl))
    | none =>
        refine Ends.bind (ends_lookupUnprefixed options h henv hroot hsimple context hs hafter
          hlength) ?_ ?_
        · rintro result s'' ⟨⟨expr, hafter'⟩, hresult'⟩
          cases result with
          | none => exact Ends.of_eq rfl ⟨⟨expr, hafter'⟩, hresult'⟩
          | some v => exact hresult expr s'' v hafter' (hresult' v rfl)
        · rintro e s'' ⟨hafter', he⟩
          exact ⟨hafter', he⟩
  · rintro e s' ⟨hafter, he⟩
    exact ⟨⟨subst, hafter⟩, he⟩

end

-- What a value stands for: itself, or something lighter.
theorem returns_replacement {refs : List (Value ℕ)} {s : ResolveState} (hs : Sound refs s)
    {v : Value ℕ} (hv : v.Forall (Allowed refs)) :
    Returns refs (fun _ => replacement v) s (fun r => r.Forall (Allowed refs) ∧
      (r ≠ v → v.isSimpleObject = false ∧ r.weight < v.weight)) := by
  have hget : (get : Resolve ResolveState) s = some (.ok s, s) := rfl
  refine Ends.bind_of_eq hget ?_
  cases hlookup : s.replacements.lookup v with
  | none => exact Returns.pure hs ⟨hv, fun hne => absurd rfl hne⟩
  | some replacer =>
      have hreplaces : Replaces refs v replacer :=
        hs.replacements (v, replacer) (Entries.mem_of_lookup hlookup)
      cases replacer with
      | cycle => exact Returns.throw hs trivial
      | delayedMerge stack skipping made =>
          obtain ⟨hsimple, hstack, hlighter, hskipping, hmade⟩ := hreplaces
          cases made with
          | some r =>
              obtain ⟨hr, hrweight⟩ := hmade r rfl
              exact Returns.pure hs ⟨hr, fun _ => ⟨hsimple, hrweight⟩⟩
          | none =>
              refine Returns.bind (Returns.fromMake hs (gives_makeReplacement hstack hskipping)) ?_
              rintro r s' hafter ⟨hr, hrweight⟩
              have hrlighter : r.weight < v.weight := by omega
              -- the entry of `v` keeps what was made
              refine Ends.bind_of_eq rfl (Ends.of_eq rfl ⟨⟨⟨hafter.sound.memos, ?_⟩, ?_,
                rfl⟩, hr, fun _ => ⟨hsimple, hrlighter⟩⟩)
              · intro entry hentry
                obtain ⟨old, hold, rfl⟩ := List.mem_map.mp hentry
                have hreplaces := hafter.sound.replacements old hold
                split
                · rename_i heq
                  obtain ⟨key, replacer⟩ := old
                  obtain rfl : key = v := heq
                  cases replacer with
                  | cycle => exact hreplaces
                  | delayedMerge stack' skipping' made' =>
                      refine ⟨hreplaces.1, hreplaces.2.1, hreplaces.2.2.1, hreplaces.2.2.2.1, ?_⟩
                      rintro u ⟨⟩
                      exact ⟨hr, hrlighter⟩
                · exact hreplaces
              · rw [ResolveState.keys, List.map_map, ResolveState.keys]
                apply List.map_congr_left
                intro old _
                by_cases heq : old.1 = v <;> simp [heq]

theorem returns_memoGet {refs : List (Value ℕ)} {s : ResolveState} (hs : Sound refs s)
    (key : MemoKey) :
    Returns refs (fun _ => Resolve.memoGet key) s
      (fun r => ∀ u, r = some u → ResolvesTo refs key.value (some u)) := by
  refine Returns.of_eq rfl hs.after ?_
  intro u hu
  have hmem := Entries.mem_of_lookup (Option.join_eq_some_iff.mp hu)
  exact hs.memos (key, some u) hmem u rfl

theorem returns_memoPut {refs : List (Value ℕ)} {s : ResolveState} (hs : Sound refs s)
    {key : MemoKey} {value : Option (Value ℕ)} (hvalue : ResolvesTo refs key.value value) :
    Returns refs (fun _ => Resolve.memoPut key value) s (fun _ => True) := by
  refine Returns.of_eq rfl ⟨⟨?_, hs.replacements⟩, rfl, rfl⟩ trivial
  intro entry hentry u hu
  rcases List.mem_cons.mp hentry with rfl | hentry
  · rw [← show value = some u from hu]
    exact hvalue
  · exact hs.memos entry hentry u hu

theorem returns_memoize {refs : List (Value ℕ)} {s : ResolveState} (hs : Sound refs s)
    (context : Option Path) {original : Value ℕ} {resolved : Option (Value ℕ)}
    (h : ResolvesTo refs original resolved) :
    Returns refs (fun _ => memoize context original resolved) s (fun _ => True) := by
  refine Returns.ite (fun _ => returns_memoPut hs h) fun _ => ?_
  cases context with
  | none => exact Returns.throw hs trivial
  | some path => exact returns_memoPut hs h

section

variable {environment : List (Bytes × Bytes)} {options : ConfigResolveOptions} {root : Value ℕ}
  {call : ℕ → Option Path → Value ℕ → Resolve (Option (Value ℕ))} {refs : List (Value ℕ)}
  {l w : ℕ} (hlighter : Resolves call refs l w)
  (hfewer : ∀ l' < l, ∀ w, Resolves call refs l' w)
  (henv : (environment.map Prod.fst).Nodup) (hroot : root.Forall (Allowed refs))
  (hsimple : root.isSimpleObject) (context : Option Path) {s : ResolveState}
  (hs : Ready refs l s)

include hfewer henv hroot hsimple hs in
theorem returns_resolveReference {id prefixLength : ℕ} {expr : SubstitutionExpression}
    (hv : Allowed refs (.configReference id expr prefixLength)) :
    Returns refs (fun n => resolveReference environment options root (call n) context
      (.configReference id expr prefixLength) expr prefixLength) s
      (fun r => ∀ u, r = some u → u.Forall (Allowed refs)) := by
  refine Returns.replaced hs.sound fun hnew => ?_
  -- a reference that is being resolved is no longer among those that remain
  have hless := remaining_cons_lt (hv.2 rfl) hnew
  have hsound : Sound refs (s.withReplacement (.configReference id expr prefixLength) .cycle) :=
    hs.sound.withReplacement rfl
  have hlookup := returns_lookupSubst options (hfewer _ (hless.trans_le hs.remaining_le)) henv hroot
    hsimple context ⟨hsound, le_rfl⟩ hv.1
  refine Returns.bind (Returns.tryCatch hlookup ?_) ?_
  · intro e s' hafter he
    refine Returns.ite (fun _ => ?_) fun _ => Returns.throw hafter.sound he
    refine Returns.ite (fun _ => ?_) fun _ => Returns.throw hafter.sound trivial
    exact Returns.pure hafter.sound (fun u hu => by cases hu)
  · intro r s' hafter hr
    refine Returns.ite (fun _ => ?_) fun _ => ?_
    · exact Returns.throw hafter.sound trivial
    · exact Returns.pure hafter.sound hr

include hlighter hfewer henv hroot hsimple hs in
theorem returns_resolveSubstitutions {v : Value ℕ} (hv : v.Forall (Allowed refs))
    (hw : v.weight ≤ w + 1) :
    Returns refs (fun n => resolveSubstitutions environment options root (call n) context v) s
      (ResolvesTo refs v) := by
  cases v with
  | configReference id expr prefixLength =>
      refine (returns_resolveReference hfewer henv hroot hsimple context hs hv).imp ?_
      intro r hr
      exact ⟨hr, fun h => by cases h⟩
  | configConcatenation id pieces =>
      rw [Value.weight] at hw
      refine (returns_resolveConcatenation hlighter hs context hv.2 (by omega)).imp ?_
      intro r hr
      exact ⟨hr, fun h => by cases h⟩
  | configDelayedMerge id stack =>
      rw [Value.weight] at hw
      refine (returns_resolveStack hlighter hs context rfl hv.2 (by rw [Value.weight]; omega)
        (by omega)).imp ?_
      rintro r ⟨hr, _⟩
      exact ⟨hr, fun h => by cases h⟩
  | configDelayedMergeObject id stack =>
      rw [Value.weight] at hw
      refine Returns.bind (returns_resolveStack hlighter hs context rfl hv.2
        (by rw [Value.weight]; omega) (by omega)) ?_
      rintro r s' hafter ⟨hr, hobject⟩
      obtain ⟨u, rfl, hu⟩ := hobject hv.1.1.head
      simp only [hu, ite_true]
      exact Returns.pure hafter.sound ⟨hr, fun h => by cases h⟩
  | simpleConfigObject id value ignores =>
      rw [Value.weight] at hw
      exact returns_resolveObject hlighter hs context hv (by omega)
  | simpleConfigList id value =>
      rw [Value.weight] at hw
      exact returns_resolveList hlighter hs context hv (by omega)
  | _ =>
      refine Returns.pure hs.sound ⟨?_, fun h => by cases h⟩
      rintro u ⟨⟩
      exact hv

include hlighter hfewer henv hroot hsimple hs in
theorem returns_resolveCheckingReplacement {v : Value ℕ} (hv : v.Forall (Allowed refs))
    (hw : v.weight ≤ w + 1) :
    Returns refs (fun n => resolveCheckingReplacement environment options root (call n) context v) s
      (ResolvesTo refs v) := by
  refine Returns.bind (returns_replacement hs.sound hv) ?_
  rintro r s' hafter ⟨hr, hchanged⟩
  refine Returns.ite (fun hne => ?_) fun _ => ?_
  · obtain ⟨hnot, hweight⟩ := hchanged hne
    refine (hlighter context r s' (hs.after hafter) hr (by omega)).imp ?_
    intro resolved hresolved
    refine ⟨hresolved.allowed, fun h => ?_⟩
    rw [hnot] at h
    cases h
  · exact returns_resolveSubstitutions hlighter hfewer henv hroot hsimple context
      (hs.after hafter) hv hw

include hlighter hfewer henv hroot hsimple hs in
theorem returns_resolveMemoized {v : Value ℕ} (hv : v.Forall (Allowed refs))
    (hw : v.weight ≤ w + 1) :
    Returns refs (fun n => resolveMemoized environment options root (call n) context v) s
      (ResolvesTo refs v) := by
  -- what is done with what the memos have
  have hrest : ∀ s' : ResolveState, After refs s s' → Returns refs (fun n => do
        let resolved ← resolveCheckingReplacement environment options root (call n) context v
        memoize context v resolved
        return resolved) s' (ResolvesTo refs v) := by
    intro s' hafter
    refine Returns.bind (returns_resolveCheckingReplacement hlighter hfewer henv hroot hsimple
      context (hs.after hafter) hv hw) ?_
    intro resolved s'' hafter' hresolved
    refine Returns.bind (returns_memoize hafter'.sound context hresolved) ?_
    intro _ s₃ hafter'' _
    exact Returns.pure hafter''.sound hresolved
  refine Returns.bind (returns_memoGet hs.sound { value := v, restrictToChild := none }) ?_
  intro full s' hafter hfull
  cases full with
  | some u => exact Ends.bind_of_eq rfl (Returns.pure hafter.sound (hfull u rfl))
  | none =>
      refine Returns.ite (fun _ => ?_) fun _ => ?_
      · refine Returns.bind (returns_memoGet hafter.sound
          { value := v, restrictToChild := context }) ?_
        intro cached s'' hafter' hcached
        cases cached with
        | some u => exact Returns.pure hafter'.sound (hcached u rfl)
        | none => exact hrest s'' (hafter.trans hafter')
      · exact Ends.bind_of_eq rfl (hrest s' hafter)

end

-- By induction on the references left and, for as many, on the weight.
theorem resolves_all {environment : List (Bytes × Bytes)} (options : ConfigResolveOptions)
    {root : Value ℕ} {refs : List (Value ℕ)} (henv : (environment.map Prod.fst).Nodup)
    (hroot : root.Forall (Allowed refs)) (hsimple : root.isSimpleObject) (l w : ℕ) :
    Resolves (resolve environment options root) refs l w := by
  induction l using Nat.strong_induction_on generalizing w with
  | _ l ihl =>
      induction w with
      | zero =>
          intro context v s hs hv hw
          have hpos := v.weight_pos
          omega
      | succ w ihw =>
          intro context v s hs hv hw
          exact Ends.of_succ
            (returns_resolveMemoized ihw ihl henv hroot hsimple context hs hv hw)

theorem returns_resolve {environment : List (Bytes × Bytes)} (options : ConfigResolveOptions)
    {root v : Value ℕ} (context : Option Path) (nextId : ℕ)
    (henv : (environment.map Prod.fst).Nodup) (hroot : root.Valid) (hsimple : root.isSimpleObject)
    (hv : v.Valid) :
    Returns (root.references ++ v.references)
      (fun n => resolve environment options root n context v) (.new nextId)
      (ResolvesTo (root.references ++ v.references) v) := by
  have hroot' : root.Forall (Allowed (root.references ++ v.references)) :=
    Value.Valid.allowed root hroot (List.subset_append_left _ _)
  have hv' : v.Forall (Allowed (root.references ++ v.references)) :=
    Value.Valid.allowed v hv (List.subset_append_right _ _)
  exact resolves_all options henv hroot' hsimple _ _ context v (.new nextId)
    ⟨⟨nofun, nofun⟩, le_rfl⟩ hv' le_rfl

-- Resolution in a new context, restricted to any path or to none, ends with a value
-- or an exception of the library, and more depth does not change it.
theorem resolve_ends (environment : List (Bytes × Bytes)) (options : ConfigResolveOptions)
    (root v : Value ℕ) (context : Option Path) (nextId : ℕ)
    (henv : (environment.map Prod.fst).Nodup) (hroot : root.Valid) (hsimple : root.isSimpleObject)
    (hv : v.Valid) :
    ∃ depth result s', (∀ n, depth ≤ n →
      resolve environment options root n context v (.new nextId) = some (result, s')) ∧
      ∀ message, result ≠ .error (.undefinedBehaviour message) := by
  obtain ⟨depth, result, s', heq, _, hresult⟩ :=
    returns_resolve options context nextId henv hroot hsimple hv
  refine ⟨depth, result, s', heq, ?_⟩
  rintro message rfl
  exact hresult

-- Two fields that refer to each other.
def cyclicRoot : Value ℕ :=
  .simpleConfigObject 0
    [(ascii "a", .configReference 1 { path := .newKey (ascii "b"), optional := false } 0),
      (ascii "b", .configReference 2 { path := .newKey (ascii "a"), optional := true } 0)] false

theorem cyclicRoot_valid : cyclicRoot.Valid := by
  simp only [cyclicRoot, Value.Valid, Value.Forall, ForallFields, Value.Checked]
  decide

theorem resolve_ends_cyclic : ∃ depth result s', (∀ n, depth ≤ n →
    resolve [] { useSystemEnvironment := true } cyclicRoot n none cyclicRoot (.new 3) =
      some (result, s')) ∧ ∀ message, result ≠ .error (.undefinedBehaviour message) :=
  resolve_ends [] { useSystemEnvironment := true } cyclicRoot cyclicRoot none 3 List.nodup_nil
    cyclicRoot_valid rfl cyclicRoot_valid

-- The static `ResolveContext::resolve` ends with it.
theorem resolveOutermost_ends (environment : List (Bytes × Bytes)) (options : ConfigResolveOptions)
    (root v : Value ℕ) (nextId : ℕ) (henv : (environment.map Prod.fst).Nodup) (hroot : root.Valid)
    (hsimple : root.isSimpleObject) (hv : v.Valid) :
    Returns (root.references ++ v.references)
      (fun n => resolveOutermost environment options root n v) (.new nextId)
      (ResolvesTo (root.references ++ v.references) v) := by
  refine Returns.tryCatch (returns_resolve options none nextId henv hroot hsimple hv) ?_
  intro e s' hafter he
  refine Returns.ite (fun _ => ?_) fun _ => ?_
  · exact Returns.throw hafter.sound trivial
  · exact Returns.throw hafter.sound he

end AsrServiceProxy.Config
