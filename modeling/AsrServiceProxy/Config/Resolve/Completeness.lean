import AsrServiceProxy.Config.Resolve.Bookkeeping
import AsrServiceProxy.Config.Resolve.Weight

-- What `SimpleConfig::resolve` returns is resolved at every node, is resolved to
-- itself, and has the fields that were resolved before as they were.
namespace AsrServiceProxy.Config

open CMemory Fuel

-- `w` has the fields of `v`, unless these could not be looked at before: a field
-- that is neither resolved nor an object may become anything, or go.
mutual

inductive Keeps : Value ℕ → Value ℕ → Prop
  | same (v : Value ℕ) : Keeps v v
  | object {id id' : ℕ} {value value' : Fields ℕ} {ignores ignores' : Bool}
      (hunresolved : Value.resolvedFields value = false) (hfields : KeepsFields value value') :
      Keeps (.simpleConfigObject id value ignores) (.simpleConfigObject id' value' ignores')
  | other {v : Value ℕ} (hunresolved : v.resolved = false) (hother : v.isSimpleObject = false)
      (w : Value ℕ) : Keeps v w

inductive KeepsFields : List (Bytes × Value ℕ) → List (Bytes × Value ℕ) → Prop
  | nil : KeepsFields [] []
  | keep {key : Bytes} {v w : Value ℕ} {rest rest' : Fields ℕ} (hv : Keeps v w)
      (hrest : KeepsFields rest rest') : KeepsFields ((key, v) :: rest) ((key, w) :: rest')
  | drop {key : Bytes} {v : Value ℕ} {rest rest' : Fields ℕ} (hunresolved : v.resolved = false)
      (hother : v.isSimpleObject = false) (hrest : KeepsFields rest rest') :
      KeepsFields ((key, v) :: rest) rest'

end

theorem Keeps.eq_of_resolved {v w : Value ℕ} (h : Keeps v w) (hv : v.resolved) : w = v := by
  cases h with
  | same => rfl
  | object hunresolved hfields =>
      rw [Value.resolved, hunresolved] at hv
      cases hv
  | other hunresolved hother =>
      rw [hunresolved] at hv
      cases hv

theorem KeepsFields.lookup {key : Bytes} {v : Value ℕ} {value value' : Fields ℕ}
    (h : KeepsFields value value') (hlookup : value.lookup key = some v)
    (hv : v.resolved ∨ v.isSimpleObject) : ∃ w, value'.lookup key = some w ∧ Keeps v w := by
  induction value generalizing value' with
  | nil => cases hlookup
  | cons field rest ih =>
      rw [List.lookup_cons] at hlookup
      cases h with
      | @keep first _ w _ rest' hw hrest =>
          rw [List.lookup_cons]
          cases hkey : key == first with
          | true =>
              simp only [hkey, Option.some.injEq] at hlookup
              subst hlookup
              exact ⟨w, rfl, hw⟩
          | false =>
              simp only [hkey] at hlookup
              exact ih hrest hlookup
      | @drop first _ _ _ hunresolved hother hrest =>
          cases hkey : key == first with
          | true =>
              simp only [hkey, Option.some.injEq] at hlookup
              subst hlookup
              rcases hv with hv | hv
              · rw [hunresolved] at hv
                cases hv
              · rw [hother] at hv
                cases hv
          | false =>
              simp only [hkey] at hlookup
              exact ih hrest hlookup

-- The value at a path of keys, through objects.
def fieldAt : Value ℕ → List Bytes → Option (Value ℕ)
  | v, [] => some v
  | .simpleConfigObject _ value _, key :: keys =>
      match value.lookup key with
      | none => none
      | some v => fieldAt v keys
  | _, _ :: _ => none

theorem Keeps.fieldAt {v w u : Value ℕ} (h : Keeps v w) {path : List Bytes}
    (hu : fieldAt v path = some u) (hresolved : u.resolved) : fieldAt w path = some u := by
  induction path generalizing v w with
  | nil =>
      rw [Config.fieldAt, Option.some.injEq] at hu
      subst hu
      rw [h.eq_of_resolved hresolved, Config.fieldAt]
  | cons key keys ih =>
      cases h with
      | same => exact hu
      | object hunresolved hfields =>
          rename_i id id' value value' ignores ignores'
          rw [Config.fieldAt] at hu
          cases hlookup : value.lookup key with
          | none =>
              rw [hlookup] at hu
              cases hu
          | some x =>
              rw [hlookup] at hu
              dsimp only at hu
              have hx : x.resolved ∨ x.isSimpleObject := by
                cases keys with
                | nil =>
                    rw [Config.fieldAt, Option.some.injEq] at hu
                    rw [hu]
                    exact .inl hresolved
                | cons next rest =>
                    cases x with
                    | simpleConfigObject => exact .inr rfl
                    | _ => cases hu
              obtain ⟨y, hy, hkeeps⟩ := hfields.lookup hlookup hx
              rw [Config.fieldAt, hy]
              exact ih hkeeps hu
      | other hunresolved hother =>
          cases v with
          | simpleConfigObject => cases hother
          | _ => cases hu

-- What a value may be resolved to, before it is known to be resolved.
def Yields (v : Value ℕ) : Option (Value ℕ) → Prop
  | some w => Keeps v w
  | none => v.resolved = false ∧ v.isSimpleObject = false

-- The result of a call that is restricted to `context`.
structure Completes (context : Option Path) (v : Value ℕ) (r : Option (Value ℕ)) : Prop where
  resolved : context = none → r.all Value.resolved = true
  yields : Yields v r

structure Complete (s : ResolveState) : Prop where
  memos : ∀ entry ∈ s.memos, entry.2.isSome → Completes entry.1.restrictToChild entry.1.value entry.2
  table : ∀ entry ∈ s.replacements, entry.1.isUnmergeable = true

theorem yields_of_unmergeable {v : Value ℕ} (h : v.isUnmergeable = true) (r : Option (Value ℕ)) :
    Yields v r := by
  have hv : v.resolved = false ∧ v.isSimpleObject = false := by
    cases v with
    | configReference | configConcatenation | configDelayedMerge | configDelayedMergeObject =>
        exact ⟨rfl, rfl⟩
    | _ => cases h
  cases r with
  | none => exact hv
  | some w => exact .other hv.1 hv.2 w

-- A computation that keeps the memos and the table in order.
abbrev Completing {α : Type} (m : Resolve α) (post : α → Prop) : Prop :=
  Maintains Complete m post fun _ => True

section

variable {α : Type} {m : Resolve α} {post : α → Prop}

theorem Completing.fromMake (make : Make ℕ α) : Completing (Resolve.fromMake make) fun _ => True := by
  intro s hs
  cases h : make s.nextId with
  | ok a n =>
      have hrun : Resolve.fromMake make s = some (.ok a, { s with nextId := n }) := by
        simp [Resolve.fromMake, h]
      exact Always.of_eq hrun ⟨⟨hs.memos, hs.table⟩, fun _ _ => trivial, fun _ _ => trivial⟩
  | error e n =>
      have hrun : Resolve.fromMake make s = some (.error e, { s with nextId := n }) := by
        simp [Resolve.fromMake, h]
      exact Always.of_eq hrun ⟨⟨hs.memos, hs.table⟩, fun _ _ => trivial, fun _ _ => trivial⟩

theorem Completing.fromExcept (r : Except ConfigException α) :
    Completing (Resolve.fromExcept r) fun _ => True := by
  intro s hs
  have hrun : Resolve.fromExcept r s = some (r, s) := rfl
  exact Always.of_eq hrun ⟨hs, fun _ _ => trivial, fun _ _ => trivial⟩

theorem Completing.inNewContext (h : Completing m post) :
    Completing (Resolve.inNewContext m) post := by
  intro s hs r s' heq
  simp only [Resolve.inNewContext, Option.map_eq_some_iff] at heq
  obtain ⟨⟨r', s₁⟩, hrun, heq⟩ := heq
  obtain ⟨rfl, rfl⟩ := heq
  obtain ⟨hs₁, hpost⟩ := h s hs r' s₁ hrun
  exact ⟨⟨hs₁.memos, hs₁.table⟩, hpost⟩

theorem Completing.finallyDo (hm : Completing m post) {after : Resolve Unit}
    (hafter : Completing after fun _ => True) : Completing (Resolve.finallyDo m after) post := by
  have hlift : Completing (ExceptT.lift m.run : Resolve (Except ConfigException α))
      fun result => ∀ a, result = .ok a → post a := by
    intro s hs r s' heq
    cases hrun : m.run s with
    | none =>
        simp [ExceptT.lift, ExceptT.mk, Functor.map, StateT.map, hrun] at heq
    | some result =>
        simp only [ExceptT.lift, ExceptT.mk, Functor.map, StateT.map, hrun] at heq
        obtain ⟨hs', hok, _⟩ := hm s hs result.1 result.2 hrun
        cases heq
        refine ⟨hs', ?_, nofun⟩
        rintro _ ⟨⟩
        exact hok
  refine Maintains.bind hlift ?_
  intro result hresult
  refine Maintains.bind hafter ?_
  intro _ _ s hs
  have hrun : Resolve.fromExcept result s = some (result, s) := rfl
  exact Always.of_eq hrun ⟨hs, hresult, fun _ _ => trivial⟩

theorem Completing.memoGet (key : MemoKey) : Completing (Resolve.memoGet key)
    fun r => r.isSome → Completes key.restrictToChild key.value r := by
  intro s hs
  have hrun : Resolve.memoGet key s = some (.ok (s.memos.lookup key).join, s) := rfl
  refine Always.of_eq hrun ⟨hs, ?_, nofun⟩
  rintro _ ⟨⟩ hsome
  cases hlookup : s.memos.lookup key with
  | none =>
      rw [hlookup] at hsome
      cases hsome
  | some r =>
      rw [hlookup] at hsome
      exact hs.memos (key, r) (Entries.mem_of_lookup hlookup) hsome

theorem Completing.memoPut {key : MemoKey} {r : Option (Value ℕ)}
    (h : Completes key.restrictToChild key.value r) :
    Completing (Resolve.memoPut key r) fun _ => True := by
  intro s hs
  have hrun : Resolve.memoPut key r s = some (.ok (), { s with memos := (key, r) :: s.memos }) := rfl
  refine Always.of_eq hrun ⟨⟨?_, hs.table⟩, fun _ _ => trivial, nofun⟩
  intro entry hentry hsome
  rcases List.mem_cons.mp hentry with rfl | hentry
  · exact h
  · exact hs.memos entry hentry hsome

theorem Completing.trace (expr : SubstitutionExpression) :
    Completing (Resolve.trace expr) fun _ => True := by
  intro s hs
  have hrun : Resolve.trace expr s =
      some (.ok (), { s with expressionTrace := expr :: s.expressionTrace }) := rfl
  exact Always.of_eq hrun ⟨⟨hs.memos, hs.table⟩, fun _ _ => trivial, nofun⟩

theorem Completing.untrace : Completing Resolve.untrace fun _ => True := by
  intro s hs r s' heq
  unfold Resolve.untrace at heq
  split at heq
  · cases heq
    exact ⟨hs, fun _ _ => trivial, fun _ _ => trivial⟩
  · cases heq
    exact ⟨⟨hs.memos, hs.table⟩, fun _ _ => trivial, fun _ _ => trivial⟩

theorem Completing.replace {v : Value ℕ} (hv : v.isUnmergeable = true) (replacer : ResolveReplacer) :
    Completing (Resolve.replace v replacer) fun _ => True := by
  intro s hs r s' heq
  unfold Resolve.replace at heq
  split at heq
  · cases heq
    exact ⟨hs, fun _ _ => trivial, fun _ _ => trivial⟩
  · cases heq
    refine ⟨⟨hs.memos, ?_⟩, fun _ _ => trivial, fun _ _ => trivial⟩
    intro entry hentry
    rcases List.mem_cons.mp hentry with rfl | hentry
    · exact hv
    · exact hs.table entry hentry

theorem Completing.unreplace (v : Value ℕ) : Completing (Resolve.unreplace v) fun _ => True := by
  intro s hs r s' heq
  unfold Resolve.unreplace at heq
  split at heq
  · cases heq
    exact ⟨hs, fun _ _ => trivial, fun _ _ => trivial⟩
  · cases heq
    refine ⟨⟨hs.memos, ?_⟩, fun _ _ => trivial, fun _ _ => trivial⟩
    intro entry hentry
    exact hs.table entry (List.mem_filter.mp hentry).1

theorem Completing.any (h : Completing m post) : Completing m fun _ => True :=
  h.imp fun _ _ => trivial

-- Only references and merges are replaced.
theorem Completing.replacement (v : Value ℕ) :
    Completing (replacement v) fun r => r = v ∨ v.isUnmergeable = true := by
  intro s hs
  have hget : (get : Resolve ResolveState) s = some (.ok s, s) := rfl
  refine Always.bind_of_eq hget ?_
  cases hlookup : s.replacements.lookup v with
  | none => exact Maintains.pure (.inl rfl) s hs
  | some replacer =>
      have hv : v.isUnmergeable = true := hs.table (v, replacer) (Entries.mem_of_lookup hlookup)
      rcases replacer with _ | ⟨stack, skipping, _ | w⟩
      · exact Maintains.throw trivial s hs
      · refine Maintains.bind (Completing.fromMake (makeReplacement stack skipping)) ?_ s hs
        intro w _ s₁ hs₁
        have hmodify : (modify fun s => { s with replacements := s.replacements.map fun r =>
            if r.1 = v then (r.1, storeReplacement w r.2) else r } : Resolve PUnit) s₁ =
            some (.ok ⟨⟩, { s₁ with replacements := s₁.replacements.map fun r =>
              if r.1 = v then (r.1, storeReplacement w r.2) else r }) := rfl
        refine Always.bind_of_eq hmodify (Maintains.pure (.inr hv) _ ⟨hs₁.memos, ?_⟩)
        intro entry hentry
        obtain ⟨entry', hentry', rfl⟩ := List.mem_map.mp hentry
        split
        · exact hs₁.table entry' hentry'
        · exact hs₁.table entry' hentry'
      · exact Maintains.pure (.inr hv) s hs

end

section

variable (environment : List (Bytes × Bytes)) (options : ConfigResolveOptions) (root : Value ℕ)
  {resolve : Option Path → Value ℕ → Resolve (Option (Value ℕ))}
  (h : ∀ context v, Completing (resolve context v) (Completes context v))

include h

theorem completing_restrictAndResolve (context restrictTo : Option Path) (v : Value ℕ) :
    Completing (restrictAndResolve resolve context restrictTo v) (Completes restrictTo v) := by
  refine Maintains.ite (fun heq => ?_) fun _ => (h restrictTo v).inNewContext
  rw [heq]
  exact h context v

theorem completing_findInObject (context : Option Path) (obj : Value ℕ) (path : Path) :
    Completing (findInObject resolve context obj path) fun _ => True := by
  refine Maintains.tryCatch (Maintains.bind
    (completing_restrictAndResolve h context (some path) obj) ?_) fun e _ => .throw trivial
  intro r _
  cases r with
  | none => exact .throw trivial
  | some v => exact .ite (fun _ => Completing.fromExcept _) fun _ => .throw trivial

theorem completing_lookupUnprefixed (context : Option Path) (subst : SubstitutionExpression)
    (prefixLength : ℕ) :
    Completing (lookupUnprefixed environment options root resolve context subst prefixLength)
      fun _ => True := by
  unfold lookupUnprefixed
  cases subst.path.subPath prefixLength with
  | none => exact .throw trivial
  | some path =>
      refine Maintains.bind Completing.untrace fun _ _ => ?_
      refine Maintains.bind (Completing.trace _) fun _ _ => ?_
      refine Maintains.bind (Maintains.ite
        (fun _ => completing_findInObject h context root path) fun _ => .pure trivial) ?_
      intro r _
      cases r with
      | some v => exact .pure trivial
      | none =>
          refine Maintains.ite (fun _ => ?_) fun _ => .pure trivial
          refine Maintains.bind (Completing.fromMake _) ?_
          intro env _
          exact completing_findInObject h context env path

theorem completing_lookupSubst (context : Option Path) (subst : SubstitutionExpression)
    (prefixLength : ℕ) :
    Completing (lookupSubst environment options root resolve context subst prefixLength)
      fun _ => True := by
  refine Maintains.bind (Completing.trace subst) fun _ _ => ?_
  refine Completing.finallyDo ?_ Completing.untrace
  have hrest : ∀ result : Option (Value ℕ), Completing (match result with
      | none => (return none : Resolve (Option (Value ℕ)))
      | some v => resolve context v) fun _ => True := by
    intro result
    cases result with
    | none => exact .pure trivial
    | some v => exact Completing.any (h context v)
  refine Maintains.bind (completing_findInObject h context root subst.path) ?_
  intro result _
  cases result with
  | some v => exact hrest (some v)
  | none =>
      refine Maintains.bind (completing_lookupUnprefixed environment options root h context subst
        prefixLength) ?_
      intro result _
      exact hrest result

theorem completing_resolveReference (context : Option Path) {self : Value ℕ}
    (hself : self.isUnmergeable = true) (expr : SubstitutionExpression) (prefixLength : ℕ) :
    Completing (resolveReference environment options root resolve context self expr prefixLength)
      fun _ => True := by
  refine Maintains.bind (Completing.replace hself .cycle) fun _ _ => ?_
  refine Completing.finallyDo ?_ (Completing.unreplace self)
  refine Maintains.bind (Maintains.tryCatch (completing_lookupSubst environment options root h
    context expr prefixLength) ?_) ?_
  · intro e _
    exact .ite (fun _ => .ite (fun _ => .pure trivial) fun _ => .throw trivial)
      fun _ => .throw trivial
  · intro v _
    exact .ite (fun _ => .throw trivial) fun _ => .pure trivial

theorem completing_resolveStackLoop (context : Option Path) {self : Value ℕ}
    (hself : self.isUnmergeable = true) (stack rest : List (Value ℕ)) (count : ℕ)
    (merged : Option (Value ℕ)) :
    Completing (resolveStackLoop resolve context self stack rest count merged) fun _ => True := by
  induction rest generalizing count merged with
  | nil => exact .pure trivial
  | cons v rest ih =>
      have hlayer : Completing (resolveLayer resolve context self stack count v) fun _ => True := by
        refine Maintains.ite (fun _ => .throw trivial) fun _ => .ite (fun _ => ?_) fun _ =>
          Completing.any (h context v)
        refine Maintains.bind (Completing.replace hself _) fun _ _ => ?_
        exact Completing.finallyDo (Completing.any (h context v)) (Completing.unreplace self)
      refine Maintains.bind hlayer ?_
      intro resolved _
      refine Maintains.bind (Completing.fromMake _) ?_
      intro merged _
      exact ih (count + 1) merged

theorem completing_resolveConcatenation (context : Option Path) (pieces : List (Value ℕ)) :
    Completing (resolveConcatenation resolve context pieces) fun _ => True := by
  have hpieces : ∀ pieces, Completing (resolvePieces resolve context pieces) fun _ => True := by
    intro pieces
    induction pieces with
    | nil => exact .pure trivial
    | cons p rest ih =>
        refine Maintains.bind (completing_restrictAndResolve h context none p) ?_
        intro r _
        exact Maintains.bind ih fun resolved _ => .pure trivial
  refine Maintains.bind (hpieces pieces) ?_
  intro resolved _
  refine Maintains.bind (Completing.fromMake _) ?_
  intro joined _
  rcases joined with _ | ⟨v, _ | ⟨w, rest⟩⟩
  · exact .throw trivial
  · exact .pure trivial
  · exact .throw trivial

theorem completing_modifyChild (context : Option Path) (key : Bytes) (v : Value ℕ) :
    Completing (modifyChild resolve context key v) (Yields v) := by
  cases context with
  | none => exact (h none v).imp fun r hr => hr.yields
  | some path =>
      refine Maintains.ite (fun _ => ?_) fun _ => .pure (.same v)
      cases path.remainder with
      | none => exact .pure (.same v)
      | some remainder =>
          exact (completing_restrictAndResolve h (some path) (some remainder) v).imp
            fun r hr => hr.yields

theorem completing_modifyFields (context : Option Path) (fields : Fields ℕ) :
    Completing (modifyFields resolve context fields) fun r => KeepsFields fields r.1 := by
  induction fields with
  | nil => exact .pure .nil
  | cons field rest ih =>
      refine Maintains.bind (completing_modifyChild h context field.1 field.2) ?_
      intro modified hmodified
      refine Maintains.bind ih ?_
      rintro ⟨fields, changed⟩ hfields
      refine Maintains.pure ?_
      cases modified with
      | none => exact .drop hmodified.1 hmodified.2 hfields
      | some w => exact .keep hmodified hfields

theorem completing_resolveObject (context : Option Path) (id : ℕ) (value : Fields ℕ)
    (ignores : Bool) :
    Completing (resolveObject resolve context (.simpleConfigObject id value ignores) value ignores)
      (Yields (.simpleConfigObject id value ignores)) := by
  refine Maintains.ite (fun _ => .pure (.same _)) fun hunresolved => ?_
  rw [Bool.not_eq_true] at hunresolved
  refine Maintains.bind (completing_modifyFields h context value) ?_
  rintro ⟨fields, changed⟩ hfields
  refine Maintains.ite (fun _ => ?_) fun _ => .pure (.same _)
  have hmake : Completing (Resolve.fromMake
      (makeObject .numbered fields (Value.resolvedFields fields) ignores))
      fun v => ∃ id', v = .simpleConfigObject id' fields ignores := by
    intro s hs
    have hrun : Resolve.fromMake (makeObject .numbered fields (Value.resolvedFields fields) ignores)
        s = some (.ok (.simpleConfigObject s.nextId fields ignores),
          { s with nextId := s.nextId + 1 }) := by
      simp [Resolve.fromMake, makeObject, Objects.new, Objects.numbered, bind, EStateM.bind, pure,
        EStateM.pure]
    refine Always.of_eq hrun ⟨⟨hs.memos, hs.table⟩, ?_, by simp⟩
    rintro _ ⟨⟩
    exact ⟨s.nextId, rfl⟩
  refine Maintains.bind hmake ?_
  rintro _ ⟨id', rfl⟩
  exact .pure (.object hunresolved hfields)

theorem completing_resolveList (context : Option Path) (id : ℕ) (value : List (Value ℕ)) :
    Completing (resolveList resolve context (.simpleConfigList id value) value)
      (Yields (.simpleConfigList id value)) := by
  have helements : ∀ value, Completing (modifyElements resolve value) fun _ => True := by
    intro value
    induction value with
    | nil => exact .pure trivial
    | cons v rest ih =>
        exact Maintains.bind (h none v) fun modified _ => .bind ih fun r _ => .pure trivial
  refine Maintains.ite (fun _ => .pure (.same _)) fun hunresolved => ?_
  rw [Bool.not_eq_true] at hunresolved
  refine Maintains.ite (fun _ => .pure (.same _)) fun _ => ?_
  refine Maintains.bind (helements value) ?_
  intro r _
  refine Maintains.ite (fun _ => ?_) fun _ => .pure (.same _)
  refine Maintains.bind (Completing.fromMake _) ?_
  intro v _
  exact .pure (Keeps.other (v := .simpleConfigList id value) hunresolved rfl v)

theorem completing_resolveSubstitutions (context : Option Path) (self : Value ℕ) :
    Completing (resolveSubstitutions environment options root resolve context self)
      (Yields self) := by
  cases self with
  | configReference id expr prefixLength =>
      exact (completing_resolveReference environment options root h context rfl expr
        prefixLength).imp fun r _ => yields_of_unmergeable rfl r
  | configConcatenation id pieces =>
      exact (completing_resolveConcatenation h context pieces).imp
        fun r _ => yields_of_unmergeable rfl r
  | configDelayedMerge id stack =>
      exact (completing_resolveStackLoop h context rfl stack stack 0 none).imp
        fun r _ => yields_of_unmergeable rfl r
  | configDelayedMergeObject id stack =>
      refine Maintains.bind (completing_resolveStackLoop h context rfl stack stack 0 none) ?_
      intro merged _
      cases merged with
      | none => exact .throw trivial
      | some v =>
          exact .ite (fun _ => .pure (yields_of_unmergeable rfl _)) fun _ => .throw trivial
  | simpleConfigObject id value ignores => exact completing_resolveObject h context id value ignores
  | simpleConfigList id value => exact completing_resolveList h context id value
  | _ => exact .pure (.same _)

theorem completing_resolveMemoized (context : Option Path) (v : Value ℕ) :
    Completing (resolveMemoized environment options root resolve context v)
      (Completes context v) := by
  have hchecking : Completing
      (resolveCheckingReplacement environment options root resolve context v) (Yields v) := by
    refine Maintains.bind (Completing.replacement v) ?_
    intro r hr
    refine Maintains.ite (fun hne => ?_) fun _ => ?_
    · rcases hr with hr | hv
      · exact absurd hr hne
      · exact (h context r).imp fun w _ => yields_of_unmergeable hv w
    · exact completing_resolveSubstitutions environment options root h context v
  have hmemoize : ∀ resolved, Yields v resolved →
      Completing (memoize context v resolved) fun _ => Completes context v resolved := by
    intro resolved hyields
    refine Maintains.ite (fun hresolved => ?_) fun hresolved => ?_
    · exact (Completing.memoPut ⟨fun _ => hresolved, hyields⟩).imp
        fun _ _ => ⟨fun _ => hresolved, hyields⟩
    · cases context with
      | none => exact .throw trivial
      | some path =>
          have hcompletes : Completes (some path) v resolved := ⟨nofun, hyields⟩
          exact (Completing.memoPut hcompletes).imp fun _ _ => hcompletes
  have hrest : ∀ cached : Option (Value ℕ), (cached.isSome → Completes context v cached) →
      Completing (match cached with
        | some w => (return some w : Resolve (Option (Value ℕ)))
        | none => do
            let resolved ← resolveCheckingReplacement environment options root resolve context v
            memoize context v resolved
            return resolved) (Completes context v) := by
    intro cached hcached
    cases cached with
    | some w => exact .pure (hcached rfl)
    | none =>
        refine Maintains.bind hchecking ?_
        intro resolved hyields
        refine Maintains.bind (hmemoize resolved hyields) ?_
        intro _ hcompletes
        exact .pure hcompletes
  refine Maintains.bind (Completing.memoGet _) ?_
  intro full hfull
  cases full with
  | some w =>
      refine hrest (some w) fun hsome => ?_
      exact ⟨fun _ => (hfull rfl).resolved rfl, (hfull rfl).yields⟩
  | none =>
      refine Maintains.ite (fun _ => ?_) fun _ => hrest none nofun
      exact Maintains.bind (Completing.memoGet _) hrest

end

theorem completing_resolve (environment : List (Bytes × Bytes)) (options : ConfigResolveOptions)
    (root : Value ℕ) (n : ℕ) (context : Option Path) (v : Value ℕ) :
    Completing (resolve environment options root n context v) (Completes context v) := by
  induction n generalizing context v with
  | zero => nofun
  | succ n ih => exact completing_resolveMemoized environment options root ih context v

-- An object is resolved to an object: null is what only references come to, and
-- nothing stands for the outermost value yet.
theorem resolve_object (environment : List (Bytes × Bytes)) (options : ConfigResolveOptions)
    (root : Value ℕ) (n : ℕ) {v : Value ℕ} (hv : v.isObject) (nextId : ℕ) :
    Always (resolve environment options root n none v) (.new nextId)
      fun r _ => ∀ a, r = .ok a → ∃ w, a = some w ∧ w.isObject := by
  have hany : ∀ {α : Type} (m : Resolve α),
      Maintains (fun _ => True) m (fun _ => True) fun _ => True :=
    fun m s _ r s' _ => ⟨trivial, fun _ _ => trivial, fun _ _ => trivial⟩
  have hsubstitutions : ∀ call, Maintains (fun _ => True)
      (resolveSubstitutions environment options root call none v)
      (fun a => ∃ w, a = some w ∧ w.isObject) fun _ => True := by
    intro call
    cases v with
    | simpleConfigObject id value ignores =>
        refine Maintains.ite (fun _ => .pure ⟨_, rfl, rfl⟩) fun _ => ?_
        refine Maintains.bind (hany _) fun modified _ => ?_
        refine Maintains.ite (fun _ => ?_) fun _ => .pure ⟨_, rfl, rfl⟩
        have hmake : Maintains (fun _ => True) (Resolve.fromMake (makeObject .numbered modified.1
            (Value.resolvedFields modified.1) ignores)) (fun w => w.isObject = true)
            fun _ => True := by
          intro s _ r s' heq
          simp [Resolve.fromMake, makeObject, Objects.new, Objects.numbered, bind, EStateM.bind,
            pure, EStateM.pure] at heq
          obtain ⟨rfl, rfl⟩ := heq
          refine ⟨trivial, ?_, by simp⟩
          rintro _ ⟨⟩
          rfl
        exact Maintains.bind hmake fun w hw => .pure ⟨w, rfl, hw⟩
    | configDelayedMergeObject id stack =>
        refine Maintains.bind (hany _) fun merged _ => ?_
        cases merged with
        | none => exact .throw trivial
        | some w => exact .ite (fun hw => .pure ⟨w, rfl, hw⟩) fun _ => .throw trivial
    | _ => cases hv
  cases n with
  | zero =>
      intro r s' hrun
      cases hrun
  | succ n =>
      have hmemo : Resolve.memoGet { value := v, restrictToChild := none } (.new nextId) =
        some (.ok none, .new nextId) := rfl
      have hreplacement : replacement v (.new nextId) = some (.ok v, .new nextId) := rfl
      have hnone : (pure none : Resolve (Option (Value ℕ))) (.new nextId) =
        some (.ok none, .new nextId) := rfl
      have hchecking : Always (resolveCheckingReplacement environment options root
          (resolve environment options root n) none v) (.new nextId)
          fun r _ => ∀ a, r = .ok a → ∃ w, a = some w ∧ w.isObject := by
        refine Always.bind_of_eq hreplacement ?_
        refine Always.ite (fun hne => absurd rfl hne) fun _ => ?_
        exact Always.imp (hsubstitutions _ _ trivial) fun r s' h => h.2.1
      refine Always.bind_of_eq hmemo (Always.bind_of_eq hnone ?_)
      refine Always.bind hchecking ?_ fun e s' _ => by simp
      intro a s' ha
      obtain ⟨w, rfl, hw⟩ := ha a rfl
      have hmemoize : Maintains (fun _ => True) (do memoize none v (some w); return some w)
          (fun a => ∃ w, a = some w ∧ w.isObject) fun _ => True :=
        Maintains.bind (hany _) fun _ _ => .pure ⟨w, rfl, hw⟩
      exact Always.imp (hmemoize _ trivial) fun r s' h => h.2.1

-- What is resolved stays as it is.
theorem resolveOutermost_of_resolved (environment : List (Bytes × Bytes))
    (options : ConfigResolveOptions) (root : Value ℕ) (depth : ℕ) {v : Value ℕ} (hv : v.resolved)
    (nextId : ℕ) : ∃ s, resolveOutermost environment options root (depth + 1) v (.new nextId) =
      some (.ok (some v), s) := by
  have hsubstitutions : ∀ call,
      resolveSubstitutions environment options root call none v = pure (some v) := by
    intro call
    cases v with
    | simpleConfigObject id value ignores => exact if_pos hv
    | simpleConfigList id value => exact if_pos hv
    | configReference | configConcatenation | configDelayedMerge | configDelayedMergeObject =>
        cases hv
    | _ => rfl
  have hmemoize : memoize none v (some v) =
      Resolve.memoPut { value := v, restrictToChild := none } (some v) := if_pos hv
  have hreplacement : replacement v (.new nextId) = some (.ok v, .new nextId) := rfl
  have hchecking : resolveCheckingReplacement environment options root
      (resolve environment options root depth) none v (.new nextId) =
        some (.ok (some v), .new nextId) := by
    rw [resolveCheckingReplacement, bind_eq_of_ok hreplacement, if_neg fun hne => hne rfl,
      hsubstitutions]
    rfl
  have hrun : resolve environment options root (depth + 1) none v (.new nextId) =
      (do memoize none v (some v); return some v : Resolve (Option (Value ℕ))) (.new nextId) :=
    congrArg (fun x => x >>= _) hchecking
  rw [hmemoize] at hrun
  exact ⟨_, congrArg (fun x => x >>= _) hrun⟩

mutual

theorem Value.forall_of_resolved : ∀ v : Value ℕ, v.resolved →
    v.Forall fun w => w.resolved = true ∧ w.isUnmergeable = false
  | .configNull _, _ | .configBoolean _ _, _ | .configInt _ _ _, _ | .configInt64 _ _ _, _
  | .configDouble _ _, _ | .configString _ _, _ => ⟨rfl, rfl⟩
  | .simpleConfigList _ value, h => ⟨⟨h, rfl⟩, forallAll_of_resolved value h⟩
  | .simpleConfigObject _ value _, h => ⟨⟨h, rfl⟩, forallFields_of_resolved value h⟩

theorem forallAll_of_resolved : ∀ vs : List (Value ℕ), Value.resolvedAll vs →
    ForallAll (fun w => w.resolved = true ∧ w.isUnmergeable = false) vs
  | [], _ => trivial
  | v :: rest, h => by
      rw [Value.resolvedAll, Bool.and_eq_true] at h
      exact ⟨v.forall_of_resolved h.1, forallAll_of_resolved rest h.2⟩

theorem forallFields_of_resolved : ∀ fields : List (Bytes × Value ℕ),
    Value.resolvedFields fields →
    ForallFields (fun w => w.resolved = true ∧ w.isUnmergeable = false) fields
  | [], _ => trivial
  | (_, v) :: rest, h => by
      rw [Value.resolvedFields, Bool.and_eq_true] at h
      exact ⟨v.forall_of_resolved h.1, forallFields_of_resolved rest h.2⟩

end

-- The result has nothing left to resolve at any depth, resolving it again gives it
-- back, and it has every field that was resolved before.
theorem resolve_complete (environment : List (Bytes × Bytes)) (options : ConfigResolveOptions)
    (root : Value ℕ) (depth nextId : ℕ) (hroot : root.isObject) (r : Option (Value ℕ))
    (s' : ResolveState)
    (h : resolveOutermost environment options root depth root (.new nextId) = some (.ok r, s')) :
    ∃ w, r = some w ∧ w.isObject ∧
      w.Forall (fun v => v.resolved = true ∧ v.isUnmergeable = false) ∧
      (∀ environment' options' depth' nextId', ∃ s'',
        resolveOutermost environment' options' w (depth' + 1) w (.new nextId') =
          some (.ok (some w), s'')) ∧
      ∀ path v, fieldAt root path = some v → v.resolved → fieldAt w path = some v := by
  have hnew : Complete (.new nextId) := ⟨nofun, nofun⟩
  have hobject := resolve_object environment options root depth hroot nextId
  have hcompletes := completing_resolve environment options root depth none root _ hnew
  have hboth : Always (resolveOutermost environment options root depth root) (.new nextId)
      fun r _ => ∀ a, r = .ok a → Completes none root a ∧ ∃ w, a = some w ∧ w.isObject := by
    have hinner : Always (resolve environment options root depth none root) (.new nextId)
        fun r _ => ∀ a, r = .ok a → Completes none root a ∧ ∃ w, a = some w ∧ w.isObject := by
      intro r s₁ heq a ha
      exact ⟨(hcompletes r s₁ heq).2.1 a ha, hobject r s₁ heq a ha⟩
    refine Always.tryCatch hinner (fun a s₁ h => h) fun e s₁ _ => ?_
    exact Always.ite (fun _ => Always.of_eq rfl nofun) fun _ => Always.of_eq rfl nofun
  obtain ⟨⟨hresolved, hyields⟩, w, rfl, hw⟩ := hboth _ _ h r rfl
  have hw' : w.resolved = true := by simpa using hresolved rfl
  refine ⟨w, rfl, hw, w.forall_of_resolved hw', ?_, ?_⟩
  · intro environment' options' depth' nextId'
    exact resolveOutermost_of_resolved environment' options' w depth' hw' nextId'
  · intro path v hv hvresolved
    exact Keeps.fieldAt hyields hv hvresolved

-- A field next to a reference to it.
theorem resolve_complete_reference :
    let number : Value ℕ := .configInt 1 5 (ascii "5")
    let reference : Value ℕ :=
      .configReference 2 { path := .newKey (ascii "a"), optional := false } 0
    let root : Value ℕ :=
      .simpleConfigObject 0 [(ascii "b", reference), (ascii "a", number)] false
    ∃ w s', resolveOutermost [] { useSystemEnvironment := false } root 6 root (.new 3) =
        some (.ok (some w), s') ∧
      w.Forall (fun v => v.resolved = true ∧ v.isUnmergeable = false) ∧
      fieldAt w [ascii "a"] = some number := by
  intro number reference root
  obtain ⟨r, s', h⟩ : ∃ r s', resolveOutermost [] { useSystemEnvironment := false } root 6 root
      (.new 3) = some (.ok r, s') := ⟨_, _, rfl⟩
  obtain ⟨w, rfl, _, hforall, _, hfields⟩ := resolve_complete [] _ root 6 3 rfl r s' h
  exact ⟨w, s', h, hforall, hfields [ascii "a"] number rfl rfl⟩

end AsrServiceProxy.Config
