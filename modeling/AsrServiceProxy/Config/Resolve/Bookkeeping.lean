import AsrServiceProxy.Config.Resolve
import AsrServiceProxy.Lib.Entries
import AsrServiceProxy.Lib.Fuel
import Mathlib.Data.List.Forall2

-- Resolution leaves the table of replacements and the trace as it found them,
-- whether it returns or throws.
namespace AsrServiceProxy.Config

open CMemory Fuel

-- The same replacer, which may have made its replacement in the meantime.
def ResolveReplacer.SameAs : ResolveReplacer → ResolveReplacer → Prop
  | .cycle, .cycle => True
  | .delayedMerge stack skipping _, .delayedMerge stack' skipping' _ =>
      stack = stack' ∧ skipping = skipping'
  | _, _ => False

def SameEntry (entry entry' : Value ℕ × ResolveReplacer) : Prop :=
  entry.1 = entry'.1 ∧ entry.2.SameAs entry'.2

-- The table has the same entries.
def SameTable (s s' : ResolveState) : Prop :=
  List.Forall₂ SameEntry s.replacements s'.replacements

structure Restored (s s' : ResolveState) : Prop where
  table : SameTable s s'
  expressionTrace : s'.expressionTrace = s.expressionTrace

theorem ResolveReplacer.SameAs.refl (r : ResolveReplacer) : r.SameAs r := by
  cases r with
  | cycle => trivial
  | delayedMerge => exact ⟨rfl, rfl⟩

theorem ResolveReplacer.SameAs.trans {r r' r'' : ResolveReplacer} (h : r.SameAs r')
    (h' : r'.SameAs r'') : r.SameAs r'' := by
  cases r with
  | cycle =>
      cases r' with
      | cycle => exact h'
      | delayedMerge => cases h
  | delayedMerge stack skipping =>
      cases r' with
      | cycle => cases h
      | delayedMerge stack' skipping' =>
          cases r'' with
          | cycle => cases h'
          | delayedMerge => exact ⟨h.1.trans h'.1, h.2.trans h'.2⟩

theorem ResolveReplacer.SameAs.store (r : ResolveReplacer) (v : Value ℕ) :
    r.SameAs (storeReplacement v r) := by
  cases r with
  | cycle => trivial
  | delayedMerge => exact ⟨rfl, rfl⟩

theorem SameEntry.refl (entry : Value ℕ × ResolveReplacer) : SameEntry entry entry :=
  ⟨rfl, .refl entry.2⟩

theorem SameTable.refl (s : ResolveState) : SameTable s s :=
  List.forall₂_same.mpr fun entry _ => .refl entry

theorem forall₂_trans {α : Type} {r : α → α → Prop} (htrans : ∀ a b c, r a b → r b c → r a c)
    {xs ys zs : List α} (h : List.Forall₂ r xs ys) (h' : List.Forall₂ r ys zs) :
    List.Forall₂ r xs zs := by
  induction h generalizing zs with
  | nil => exact h'
  | cons hab _ ih =>
      cases h' with
      | cons hbc hrest => exact .cons (htrans _ _ _ hab hbc) (ih hrest)

theorem SameTable.trans {s s' s'' : ResolveState} (h : SameTable s s') (h' : SameTable s' s'') :
    SameTable s s'' :=
  forall₂_trans (fun _ _ _ hab hbc => ⟨hab.1.trans hbc.1, hab.2.trans hbc.2⟩) h h'

theorem Restored.refl (s : ResolveState) : Restored s s := ⟨.refl s, rfl⟩

theorem Restored.trans {s s' s'' : ResolveState} (h : Restored s s') (h' : Restored s' s'') :
    Restored s s'' :=
  ⟨h.table.trans h'.table, h'.expressionTrace.trans h.expressionTrace⟩

-- `m` restores the table and the trace from every state.
def Restores {α : Type} (m : Resolve α) : Prop := ∀ s, Always m s fun _ s' => Restored s s'

section

variable {α β : Type} {m m' : Resolve α}

theorem Restores.of_same (h : ∀ s, ∃ r s', m s = some (r, s') ∧ s'.replacements = s.replacements ∧
    s'.expressionTrace = s.expressionTrace) : Restores m := by
  intro s
  obtain ⟨r, s', heq, hreplacements, htrace⟩ := h s
  refine Always.of_eq heq ⟨?_, htrace⟩
  rw [SameTable, hreplacements]
  exact SameTable.refl s

theorem Restores.pure (a : α) : Restores (pure a : Resolve α) :=
  .of_same fun s => ⟨.ok a, s, rfl, rfl, rfl⟩

theorem Restores.throw (e : ConfigException) : Restores (throw e : Resolve α) :=
  .of_same fun s => ⟨.error e, s, rfl, rfl, rfl⟩

theorem Restores.bind {f : α → Resolve β} (hm : Restores m) (hf : ∀ a, Restores (f a)) :
    Restores (m >>= f) := by
  intro s
  refine Always.bind (hm s) ?_ ?_
  · intro a s' h
    refine Always.imp (hf a s') ?_
    intro r s'' h'
    exact h.trans h'
  · intro e s' h
    exact h

theorem Restores.tryCatch {handler : ConfigException → Resolve α} (hm : Restores m)
    (hhandler : ∀ e, Restores (handler e)) : Restores (tryCatch m handler) := by
  intro s
  refine Always.tryCatch (hm s) ?_ ?_
  · intro a s' h
    exact h
  · intro e s' h
    refine Always.imp (hhandler e s') ?_
    intro r s'' h'
    exact h.trans h'

theorem Restores.ite {c : Prop} [Decidable c] (hm : c → Restores m) (hm' : ¬c → Restores m') :
    Restores (if c then m else m') :=
  fun s => Always.ite (fun h => hm h s) fun h => hm' h s

theorem Restores.fromMake (make : Make ℕ α) : Restores (Resolve.fromMake make) := by
  apply Restores.of_same
  intro s
  cases h : make s.nextId with
  | ok a n => exact ⟨.ok a, { s with nextId := n }, by simp [Resolve.fromMake, h], rfl, rfl⟩
  | error e n => exact ⟨.error e, { s with nextId := n }, by simp [Resolve.fromMake, h], rfl, rfl⟩

theorem Restores.fromExcept (r : Except ConfigException α) : Restores (Resolve.fromExcept r) :=
  .of_same fun s => ⟨r, s, rfl, rfl, rfl⟩

theorem Restores.memoGet (key : MemoKey) : Restores (Resolve.memoGet key) :=
  .of_same fun s => ⟨.ok (s.memos.lookup key).join, s, rfl, rfl, rfl⟩

theorem Restores.memoPut (key : MemoKey) (value : Option (Value ℕ)) :
    Restores (Resolve.memoPut key value) :=
  .of_same fun s => ⟨.ok (), { s with memos := (key, value) :: s.memos }, rfl, rfl, rfl⟩

theorem Restores.inNewContext (hm : Restores m) : Restores (Resolve.inNewContext m) := by
  intro s r s' heq
  simp only [Resolve.inNewContext, Option.map_eq_some_iff] at heq
  obtain ⟨⟨r', s₁⟩, hrun, heq⟩ := heq
  obtain ⟨rfl, rfl⟩ := heq
  exact ⟨(hm s r' s₁ hrun).table, rfl⟩

theorem always_finallyDo {s : ResolveState} {after : Resolve Unit}
    {mid post : Except ConfigException α → ResolveState → Prop} (hm : Always m s mid)
    (hafter : ∀ r s', mid r s' → ∃ s'', after s' = some (.ok (), s'') ∧ post r s'') :
    Always (Resolve.finallyDo m after) s post := by
  intro r s' heq
  cases hrun : m.run s with
  | none =>
      have hlift : (ExceptT.lift m.run : Resolve (Except ConfigException α)) s = none := by
        simp [ExceptT.lift, ExceptT.mk, Functor.map, StateT.map, hrun]
      have hcut : Resolve.finallyDo m after s = none := congrArg (fun x => x >>= _) hlift
      rw [hcut] at heq
      cases heq
  | some result =>
      obtain ⟨first, s₁⟩ := result
      obtain ⟨s₂, hs₂, hpost⟩ := hafter first s₁ (hm first s₁ hrun)
      have hdone : Resolve.finallyDo m after s = some (first, s₂) := Resolve.finallyDo_run hrun hs₂
      rw [hdone, Option.some.injEq, Prod.mk.injEq] at heq
      obtain ⟨rfl, rfl⟩ := heq
      exact hpost

theorem keys_eq_of_forall₂ {table table' : List (Value ℕ × ResolveReplacer)}
    (h : List.Forall₂ SameEntry table table') : table'.map Prod.fst = table.map Prod.fst := by
  induction h with
  | nil => rfl
  | cons hentry _ ih => rw [List.map_cons, List.map_cons, ih, hentry.1]

-- The entry that `unreplace` takes out is the one that `replace` put in.
theorem unreplace_restores {s s' : ResolveState} {self : Value ℕ} {replacer : ResolveReplacer}
    (hself : s.replacements.lookup self = none)
    (h : Restored { s with replacements := (self, replacer) :: s.replacements } s') :
    ∃ s'', Resolve.unreplace self s' = some (.ok (), s'') ∧ Restored s s'' := by
  obtain ⟨htable, htrace⟩ := h
  rw [SameTable] at htable
  cases hs' : s'.replacements with
  | nil =>
      rw [hs'] at htable
      cases htable
  | cons entry rest =>
      rw [hs'] at htable
      obtain ⟨hentry, hrest⟩ := List.forall₂_cons.mp htable
      have hfound : s'.replacements.lookup self = some entry.2 := by
        rw [hs', List.lookup_cons, ← hentry.1, beq_self_eq_true]
      have hkeys : self ∉ rest.map Prod.fst := by
        rw [keys_eq_of_forall₂ hrest]
        exact Entries.lookup_eq_none_iff.mp hself
      have hfilter : (entry :: rest).filter (fun r => r.1 ≠ self) = rest := by
        rw [List.filter_cons_of_neg (by simp [← hentry.1]), List.filter_eq_self]
        intro r hr
        have hne : r.1 ≠ self := by
          rintro rfl
          exact hkeys (List.mem_map_of_mem hr)
        simpa using hne
      refine ⟨{ s' with replacements := rest }, ?_, hrest, htrace⟩
      simp only [Resolve.unreplace, hfound, Option.isNone_some, Bool.false_eq_true, ite_false]
      rw [hs', hfilter]

theorem Restores.replaced (hm : Restores m) (self : Value ℕ) (replacer : ResolveReplacer) :
    Restores (do
      Resolve.replace self replacer
      Resolve.finallyDo m (Resolve.unreplace self)) := by
  intro s
  cases hself : s.replacements.lookup self with
  | some r =>
      have hreplace : Resolve.replace self replacer s =
          some (.error (.bugOrBroken "should not have replaced the same value twice: "), s) := by
        simp [Resolve.replace, hself]
      exact Always.of_eq (congrArg (fun x => x >>= _) hreplace) (.refl s)
  | none =>
      have hreplace : Resolve.replace self replacer s =
          some (.ok (), { s with replacements := (self, replacer) :: s.replacements }) := by
        simp [Resolve.replace, hself]
      refine Always.bind_of_eq hreplace ?_
      refine always_finallyDo (hm _) ?_
      intro r s' h
      exact unreplace_restores hself h

-- While a reference is looked up, the last expression of the trace may change.
theorem Restores.traced (expr : SubstitutionExpression)
    (hm : ∀ s T, s.expressionTrace = expr :: T → Always m s fun _ s' =>
      SameTable s s' ∧ ∃ expr', s'.expressionTrace = expr' :: T) :
    Restores (do
      Resolve.trace expr
      Resolve.finallyDo m Resolve.untrace) := by
  intro s
  have htrace : Resolve.trace expr s =
      some (.ok (), { s with expressionTrace := expr :: s.expressionTrace }) := rfl
  refine Always.bind_of_eq htrace ?_
  refine always_finallyDo (hm _ s.expressionTrace rfl) ?_
  rintro r s' ⟨htable, expr', hexpr'⟩
  refine ⟨{ s' with expressionTrace := s.expressionTrace }, ?_, htable, rfl⟩
  simp [Resolve.untrace, hexpr']

end

section

variable (environment : List (Bytes × Bytes)) (options : ConfigResolveOptions) (root : Value ℕ)
  {resolve : Option Path → Value ℕ → Resolve (Option (Value ℕ))}
  (h : ∀ context v, Restores (resolve context v))

include h

theorem restores_restrictAndResolve (context restrictTo : Option Path) (v : Value ℕ) :
    Restores (restrictAndResolve resolve context restrictTo v) :=
  .ite (fun _ => h context v) fun _ => (h restrictTo v).inNewContext

theorem restores_findInObject (context : Option Path) (obj : Value ℕ) (path : Path) :
    Restores (findInObject resolve context obj path) := by
  refine Restores.tryCatch ?_ fun e => .throw _
  refine Restores.bind (restores_restrictAndResolve h context (some path) obj) ?_
  intro r
  cases r with
  | none => exact .throw _
  | some v => exact .ite (fun _ => .fromExcept _) fun _ => .throw _

-- The last expression of the trace is exchanged for the unprefixed one.
theorem always_lookupUnprefixed (context : Option Path) (subst expr : SubstitutionExpression)
    (prefixLength : ℕ) {s : ResolveState} {T : List SubstitutionExpression}
    (hs : s.expressionTrace = expr :: T) :
    Always (lookupUnprefixed environment options root resolve context subst prefixLength) s
      fun _ s' => SameTable s s' ∧ ∃ expr', s'.expressionTrace = expr' :: T := by
  unfold lookupUnprefixed
  cases subst.path.subPath prefixLength with
  | none => exact Always.of_eq rfl ⟨.refl s, expr, hs⟩
  | some path =>
      have huntrace : Resolve.untrace s = some (.ok (), { s with expressionTrace := T }) := by
        simp [Resolve.untrace, hs]
      refine Always.bind_of_eq huntrace ?_
      have htrace : Resolve.trace { subst with path := path } { s with expressionTrace := T } =
          some (.ok (), { s with expressionTrace := { subst with path := path } :: T }) := rfl
      refine Always.bind_of_eq htrace ?_
      refine Always.imp (Restores.bind (.ite (fun _ => restores_findInObject h context root path)
        fun _ => .pure none) ?_ _) ?_
      · intro r
        cases r with
        | some v => exact .pure _
        | none =>
            refine Restores.ite (fun _ => ?_) fun _ => .pure _
            refine Restores.bind (.fromMake _) ?_
            intro env
            exact restores_findInObject h context env path
      · intro r s' hrestored
        exact ⟨hrestored.table, _, hrestored.expressionTrace⟩

theorem restores_lookupSubst (context : Option Path) (subst : SubstitutionExpression)
    (prefixLength : ℕ) :
    Restores (lookupSubst environment options root resolve context subst prefixLength) := by
  refine Restores.traced subst ?_
  intro s T hs
  -- the rest, once the last expression of the trace is `expr`
  have hrest : ∀ (v : Value ℕ) (s₁ : ResolveState) (expr : SubstitutionExpression),
      SameTable s s₁ → s₁.expressionTrace = expr :: T → Always (resolve context v) s₁
        fun _ s' => SameTable s s' ∧ ∃ expr', s'.expressionTrace = expr' :: T := by
    intro v s₁ expr htable hexpr
    refine Always.imp (h context v s₁) ?_
    intro r s' hrestored
    exact ⟨htable.trans hrestored.table, expr, hrestored.expressionTrace.trans hexpr⟩
  refine Always.bind (restores_findInObject h context root subst.path s) ?_ ?_
  · intro result s₁ hrestored
    have htrace₁ : s₁.expressionTrace = subst :: T := hrestored.expressionTrace.trans hs
    cases result with
    | some v => exact Always.bind_of_eq rfl (hrest v s₁ subst hrestored.table htrace₁)
    | none =>
        refine Always.bind (always_lookupUnprefixed environment options root h context subst subst
          prefixLength htrace₁) ?_ ?_
        · rintro result s₂ ⟨htable, expr', hexpr'⟩
          have htable₂ : SameTable s s₂ := hrestored.table.trans htable
          cases result with
          | none => exact Always.of_eq rfl ⟨htable₂, expr', hexpr'⟩
          | some v => exact hrest v s₂ expr' htable₂ hexpr'
        · rintro e s₂ ⟨htable, hexpr'⟩
          exact ⟨hrestored.table.trans htable, hexpr'⟩
  · intro e s₁ hrestored
    exact ⟨hrestored.table, subst, hrestored.expressionTrace.trans hs⟩

theorem restores_resolveReference (context : Option Path) (self : Value ℕ)
    (expr : SubstitutionExpression) (prefixLength : ℕ) :
    Restores (resolveReference environment options root resolve context self expr prefixLength) := by
  refine Restores.replaced ?_ self .cycle
  refine Restores.bind (.tryCatch
    (restores_lookupSubst environment options root h context expr prefixLength) ?_) ?_
  · intro e
    exact .ite (fun _ => .ite (fun _ => .pure _) fun _ => .throw _) fun _ => .throw _
  · intro v
    exact .ite (fun _ => .throw _) fun _ => .pure _

theorem restores_resolveLayer (context : Option Path) (self : Value ℕ) (stack : List (Value ℕ))
    (count : ℕ) (v : Value ℕ) : Restores (resolveLayer resolve context self stack count v) := by
  refine Restores.ite (fun _ => .throw _) fun _ => .ite (fun _ => ?_) fun _ => h context v
  exact Restores.replaced (h context v) self _

theorem restores_resolveStackLoop (context : Option Path) (self : Value ℕ)
    (stack rest : List (Value ℕ)) (count : ℕ) (merged : Option (Value ℕ)) :
    Restores (resolveStackLoop resolve context self stack rest count merged) := by
  induction rest generalizing count merged with
  | nil => exact .pure _
  | cons v rest ih =>
      refine Restores.bind (restores_resolveLayer h context self stack count v) ?_
      intro resolved
      refine Restores.bind (.fromMake _) ?_
      intro merged
      exact ih (count + 1) merged

theorem restores_resolveConcatenation (context : Option Path) (pieces : List (Value ℕ)) :
    Restores (resolveConcatenation resolve context pieces) := by
  have hpieces : ∀ pieces, Restores (resolvePieces resolve context pieces) := by
    intro pieces
    induction pieces with
    | nil => exact .pure _
    | cons p rest ih =>
        refine Restores.bind (restores_restrictAndResolve h context none p) ?_
        intro r
        exact Restores.bind ih fun resolved => .pure _
  refine Restores.bind (hpieces pieces) ?_
  intro resolved
  refine Restores.bind (.fromMake _) ?_
  intro joined
  rcases joined with _ | ⟨v, _ | ⟨w, rest⟩⟩
  · exact .throw _
  · exact .pure _
  · exact .throw _

theorem restores_modifyFields (context : Option Path) (fields : Fields ℕ) :
    Restores (modifyFields resolve context fields) := by
  induction fields with
  | nil => exact .pure _
  | cons field rest ih =>
      refine Restores.bind ?_ fun modified => .bind ih fun r => .pure _
      cases context with
      | none => exact h none field.2
      | some path =>
          refine Restores.ite (fun _ => ?_) fun _ => .pure _
          cases path.remainder with
          | none => exact .pure _
          | some remainder => exact restores_restrictAndResolve h (some path) (some remainder) field.2

theorem restores_resolveObject (context : Option Path) (self : Value ℕ) (value : Fields ℕ)
    (ignores : Bool) : Restores (resolveObject resolve context self value ignores) := by
  refine Restores.ite (fun _ => .pure _) fun _ => ?_
  refine Restores.bind (restores_modifyFields h context value) ?_
  intro r
  refine Restores.ite (fun _ => ?_) fun _ => .pure _
  exact Restores.bind (.fromMake _) fun v => .pure _

theorem restores_resolveList (context : Option Path) (self : Value ℕ) (value : List (Value ℕ)) :
    Restores (resolveList resolve context self value) := by
  have helements : ∀ value, Restores (modifyElements resolve value) := by
    intro value
    induction value with
    | nil => exact .pure _
    | cons v rest ih => exact Restores.bind (h none v) fun modified => .bind ih fun r => .pure _
  refine Restores.ite (fun _ => .pure _) fun _ => .ite (fun _ => .pure _) fun _ => ?_
  refine Restores.bind (helements value) ?_
  intro r
  refine Restores.ite (fun _ => ?_) fun _ => .pure _
  exact Restores.bind (.fromMake _) fun v => .pure _

theorem restores_resolveSubstitutions (context : Option Path) (self : Value ℕ) :
    Restores (resolveSubstitutions environment options root resolve context self) := by
  cases self with
  | configReference id expr prefixLength =>
      exact restores_resolveReference environment options root h context _ expr prefixLength
  | configConcatenation id pieces => exact restores_resolveConcatenation h context pieces
  | configDelayedMerge id stack => exact restores_resolveStackLoop h context _ stack stack 0 none
  | configDelayedMergeObject id stack =>
      refine Restores.bind (restores_resolveStackLoop h context _ stack stack 0 none) ?_
      intro merged
      cases merged with
      | none => exact .throw _
      | some v => exact .ite (fun _ => .pure _) fun _ => .throw _
  | simpleConfigObject id value ignores => exact restores_resolveObject h context _ value ignores
  | simpleConfigList id value => exact restores_resolveList h context _ value
  | _ => exact .pure _

omit h in
theorem restores_replacement (v : Value ℕ) : Restores (replacement v) := by
  intro s
  have hget : (get : Resolve ResolveState) s = some (.ok s, s) := rfl
  refine Always.bind_of_eq hget ?_
  rcases s.replacements.lookup v with _ | _ | ⟨stack, skipping, _ | w⟩
  · exact Restores.pure v s
  · exact Restores.throw _ s
  · refine Always.bind (Restores.fromMake (makeReplacement stack skipping) s) ?_ fun _ _ h => h
    intro w s₁ hrestored
    have hmodify : (modify fun s => { s with replacements := s.replacements.map fun r =>
        if r.1 = v then (r.1, storeReplacement w r.2) else r } : Resolve PUnit) s₁ =
        some (.ok ⟨⟩, { s₁ with replacements := s₁.replacements.map fun r =>
          if r.1 = v then (r.1, storeReplacement w r.2) else r }) := rfl
    refine Always.bind_of_eq hmodify (Always.of_eq rfl ⟨hrestored.table.trans ?_,
      hrestored.expressionTrace⟩)
    rw [SameTable, List.forall₂_map_right_iff, List.forall₂_same]
    intro entry _
    split
    · exact ⟨rfl, .store entry.2 w⟩
    · exact .refl entry
  · exact Restores.pure w s

theorem restores_resolveMemoized (context : Option Path) (v : Value ℕ) :
    Restores (resolveMemoized environment options root resolve context v) := by
  have hchecking : Restores
      (resolveCheckingReplacement environment options root resolve context v) := by
    refine Restores.bind (restores_replacement v) ?_
    intro r
    refine Restores.ite (fun _ => h context r) fun _ => ?_
    exact restores_resolveSubstitutions environment options root h context v
  have hmemoize : ∀ resolved, Restores (memoize context v resolved) := by
    intro resolved
    refine Restores.ite (fun _ => .memoPut _ _) fun _ => ?_
    cases context with
    | none => exact .throw _
    | some path => exact .memoPut _ _
  have hrest := Restores.bind hchecking fun resolved => .bind (hmemoize resolved) fun _ =>
    .pure resolved
  refine Restores.bind (.memoGet _) ?_
  intro full
  cases full with
  | some w => exact Restores.pure (some w)
  | none =>
      refine Restores.ite (fun _ => ?_) fun _ => hrest
      refine Restores.bind (.memoGet _) ?_
      intro cached
      cases cached with
      | some w => exact .pure _
      | none => exact hrest

end

theorem restores_resolve (environment : List (Bytes × Bytes)) (options : ConfigResolveOptions)
    (root : Value ℕ) (n : ℕ) (context : Option Path) (v : Value ℕ) :
    Restores (resolve environment options root n context v) := by
  induction n generalizing context v with
  | zero => nofun
  | succ n ih => exact restores_resolveMemoized environment options root ih context v

-- After `resolve` has returned or thrown, the table has the entries it had, each with
-- its replacer, and the trace of the context is the one it was.
theorem resolve_restored (environment : List (Bytes × Bytes)) (options : ConfigResolveOptions)
    (root : Value ℕ) (depth : ℕ) (context : Option Path) (v : Value ℕ) (s s' : ResolveState)
    (r : Except ConfigException (Option (Value ℕ)))
    (h : resolve environment options root depth context v s = some (r, s')) :
    List.Forall₂ (fun entry entry' => entry.1 = entry'.1 ∧ entry.2.SameAs entry'.2)
        s.replacements s'.replacements ∧ s'.expressionTrace = s.expressionTrace := by
  obtain ⟨htable, htrace⟩ := restores_resolve environment options root depth context v s r s' h
  exact ⟨htable, htrace⟩

-- A required reference to itself, resolved while another one is being looked up.
theorem resolve_restored_cycle :
    let other : SubstitutionExpression := { path := .newKey (ascii "b"), optional := false }
    let self : Value ℕ :=
      .configReference 1 { path := .newKey (ascii "a"), optional := false } 0
    let s : ResolveState :=
      { nextId := 3
        memos := []
        replacements := [(.configReference 2 other 0, .cycle)]
        expressionTrace := [other] }
    ∃ s', resolve [] { useSystemEnvironment := false }
        (.simpleConfigObject 0 [(ascii "a", self)] false) 5 none self s =
      some (.error (.unresolvedSubstitution
        " was part of a cycle of substitutions involving "), s') ∧
      List.Forall₂ (fun entry entry' => entry.1 = entry'.1 ∧ entry.2.SameAs entry'.2)
        s.replacements s'.replacements ∧ s'.expressionTrace = s.expressionTrace := by
  intro other self s
  obtain ⟨s', hs'⟩ : ∃ s', resolve [] { useSystemEnvironment := false }
      (.simpleConfigObject 0 [(ascii "a", self)] false) 5 none self s =
      some (.error (.unresolvedSubstitution
        " was part of a cycle of substitutions involving "), s') := ⟨_, rfl⟩
  exact ⟨s', hs', resolve_restored _ _ _ _ _ _ _ _ _ hs'⟩

end AsrServiceProxy.Config
